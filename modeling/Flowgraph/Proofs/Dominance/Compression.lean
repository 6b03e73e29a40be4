import Flowgraph.Proofs.Dominance.Correctness

/-!
# Requests to a forest

The sweep links the next vertex to its parent once its rank is known, and searches upward from
linked vertices. `Forest.Issued` lists such sequences of requests, and the sweep keeps to them
(`FlowGraph.Sound.serves_sweep`). Searches that compress the way find the same as those that go up
link by link (`Forest.compression_transparent`).
-/

namespace Flowgraph

open List

variable {v size bound : Nat} {parent : Nat → Nat} {forest : Forest}

namespace Forest

/-! ### Requests -/

/-- Give a vertex its rank and link it to its parent, or search upward from a vertex. -/
inductive Request where
  | link (v rank : Nat)
  | eval (v : Nat)

/-- The forest after a request, when a search changes it as given. -/
def serve (search : Forest → Nat → Forest) (parent : Nat → Nat) (forest : Forest) : Request → Forest
  | .link v rank => (forest.setSemi v rank).link (parent v) v
  | .eval v => search forest v

/-- The forest after several requests. -/
def after (search : Forest → Nat → Forest) (size : Nat) (parent : Nat → Nat)
    (requests : List Request) : Forest :=
  requests.foldl (serve search parent) (.ofSize size)

/-- The forest after several requests, compressed by every search. -/
def compressed (size : Nat) (parent : Nat → Nat) (requests : List Request) : Forest :=
  after (fun forest v => (forest.eval v).1) size parent requests

/-- The forest after several requests, without compression. -/
def uncompressed (size : Nat) (parent : Nat → Nat) (requests : List Request) : Forest :=
  after (fun forest _ => forest) size parent requests

/-- Vertices are linked from the largest down to `bound`, and searched from only when linked. -/
inductive Issued (size : Nat) : Nat → List Request → Prop where
  | nil : Issued size size []
  | link {v rank : Nat} {requests : List Request} : Issued size (v + 1) requests → 0 < v →
      Issued size v (requests ++ [.link v rank])
  | eval {bound v : Nat} {requests : List Request} : Issued size bound requests → bound ≤ v →
      v < size → Issued size bound (requests ++ [.eval v])

variable {requests : List Request} {plain : Forest}

/-- One more request, with any search. -/
theorem after_append (search : Forest → Nat → Forest) (request : Request) :
    after search size parent (requests ++ [request]) =
      serve search parent (after search size parent requests) request := by
  rw [after, foldl_append]
  rfl

/-- One more request, with compression. -/
theorem compressed_append (request : Request) : compressed size parent (requests ++ [request]) =
    serve (fun forest v => (forest.eval v).1) parent (compressed size parent requests) request :=
  after_append ..

/-- Links start at the highest node. -/
theorem Issued.le_size (h : Issued size bound requests) : bound ≤ size := by
  induction h with
  | nil => exact Nat.le_refl _
  | link _ _ ih => exact Nat.le_of_succ_le ih
  | eval _ _ _ ih => exact ih

/-- The root is never linked. -/
theorem Issued.pos (h : Issued size bound requests) (hsize : 0 < size) : 0 < bound := by
  induction h with
  | nil => exact hsize
  | link _ hpos => exact hpos
  | eval _ _ _ ih => exact ih

/-! ### Searches without compression -/

/-- The vertices that a search meets, without the root. -/
inductive Way (forest : Forest) : Nat → List Nat → Prop where
  | root {v : Nat} : forest.ancestor? v = none → Way forest v []
  | up {v a : Nat} {path : List Nat} : forest.ancestor? v = some a → Way forest a path →
      Way forest v (v :: path)

/-- The better of two vertices, and the first if their ranks are equal. -/
def better (forest : Forest) (best v : Nat) : Nat :=
  if forest.semiOf v < forest.semiOf best then v else best

/-- The nearest vertex of least rank is the best one. -/
theorem foldl_better {path : List Nat} {first b : Nat} (hsorted : (first :: path).Pairwise (· > ·))
    (hb : b ∈ first :: path) (hleast : ∀ u ∈ first :: path, forest.semiOf b ≤ forest.semiOf u)
    (hnearest : ∀ u ∈ first :: path, b < u → forest.semiOf b < forest.semiOf u) :
    path.foldl forest.better first = b := by
  induction path generalizing first with
  | nil => exact (mem_singleton.mp hb).symm
  | cons u rest ih =>
    have hfirst : u < first := rel_of_pairwise_cons hsorted mem_cons_self
    rw [foldl_cons, better]
    split
    · next hless =>
      have hne : b ≠ first := by
        intro heq
        have hle := hleast u (by simp)
        rw [heq] at hle
        omega
      exact ih hsorted.of_cons ((mem_cons.mp hb).resolve_left hne)
        (fun w hw => hleast w (mem_cons_of_mem _ hw))
        (fun w hw => hnearest w (mem_cons_of_mem _ hw))
    · next hless =>
      have hne : b ≠ u := by
        intro heq
        exact hless (heq ▸ hnearest first mem_cons_self (heq ▸ hfirst))
      have hsub : (first :: rest).Sublist (first :: u :: rest) :=
        (sublist_cons_self u rest).cons_cons first
      refine ih (hsorted.sublist hsub) ?_ (fun w hw => hleast w (hsub.subset hw))
        (fun w hw => hnearest w (hsub.subset hw))
      rcases mem_cons.mp hb with heq | hmem
      · exact heq ▸ mem_cons_self
      · exact mem_cons_of_mem _ ((mem_cons.mp hmem).resolve_left hne)

/-- The links as they were made: the vertices from `bound` on are linked to their parents. -/
structure Plain (size : Nat) (parent : Nat → Nat) (bound : Nat) (plain : Forest) : Prop where
  semi_size : plain.semi.size = size
  ancestor_size : plain.ancestor.size = size
  root : ∀ {v}, v < bound → plain.ancestor? v = none
  linked : ∀ {v}, bound ≤ v → v < size → plain.ancestor? v = some (parent v)

/-- The way up passes the linked ancestors, from the largest down. -/
theorem Plain.exists_way (h : Plain size parent bound plain) (d : Descends size parent)
    (hpos : 0 < bound) (hv : v < size) : ∃ path, plain.Way v path ∧ path.Pairwise (· > ·) ∧
      ∀ u, u ∈ path ↔ bound ≤ u ∧ Ancestor parent u v := by
  induction v using Nat.strongRecOn with
  | ind v ih =>
    rcases Nat.lt_or_ge v bound with hroot | hlinked
    · refine ⟨[], .root (h.root hroot), .nil, fun u => ?_⟩
      simp only [not_mem_nil, false_iff, not_and]
      intro hu huv
      have hle := huv.le d.parent_le
      omega
    · have hlt : parent v < v := d.parent_lt (by omega) hv
      obtain ⟨path, hway, hsorted, hmem⟩ := ih (parent v) hlt (by omega)
      refine ⟨v :: path, .up (h.linked hlinked hv) hway,
        pairwise_cons.mpr ⟨fun u hu => ?_, hsorted⟩, fun u => ?_⟩
      · have hle := ((hmem u).mp hu).2.le d.parent_le
        omega
      · rw [mem_cons, hmem]
        constructor
        · intro hu
          rcases hu with rfl | ⟨hu, hup⟩
          · exact ⟨hlinked, .refl⟩
          · exact ⟨hu, hup.step⟩
        · intro hu
          obtain ⟨hu, huv⟩ := hu
          by_cases heq : u = v
          · exact .inl heq
          · exact .inr ⟨hu, huv.parent_of_ne heq⟩

/-! ### Both forests side by side -/

/-- What the two forests have in common after the same requests. -/
structure Served (size : Nat) (parent : Nat → Nat) (bound : Nat) (forest plain : Forest) :
    Prop where
  linked : Linked size parent bound forest
  direct : Plain size parent bound plain
  semi_eq : plain.semi = forest.semi

/-- Before the first request. -/
theorem Served.ofSize : Served size parent size (.ofSize size) (.ofSize size) where
  linked := linked_ofSize
  direct := by
    refine ⟨by simp [Forest.ofSize], by simp [Forest.ofSize], fun {v} hv => ?_, fun hle hlt => ?_⟩
    · exact (Linked.root (linked_ofSize : Linked size parent size _) hv).1
    · omega
  semi_eq := rfl

/-- Links keep the forests alike. -/
theorem Served.link (h : Served size parent (bound + 1) forest plain) (d : Descends size parent)
    (rank : Nat) (hpos : 0 < bound) (hbound : bound < size) :
    Served size parent bound ((forest.setSemi bound rank).link (parent bound) bound)
      ((plain.setSemi bound rank).link (parent bound) bound) where
  linked := h.linked.link d rank hpos hbound
  direct := by
    have hanc : ∀ u, ((plain.setSemi bound rank).link (parent bound) bound).ancestor? u =
        if bound = u then some (parent bound) else plain.ancestor? u :=
      fun u => ancestor?_link _ bound u (parent bound) (h.direct.ancestor_size.symm ▸ hbound)
    refine ⟨by simp [Forest.link, setSemi, h.direct.semi_size],
      by simp [Forest.link, setSemi, h.direct.ancestor_size], fun {u} hu => ?_,
      fun {u} hle hu => ?_⟩
    · rw [hanc, if_neg (by omega)]
      exact h.direct.root (by omega)
    · rw [hanc]
      split
      · next heq => rw [heq]
      · next hne => exact h.direct.linked (by omega) hu
  semi_eq := by
    show plain.semi.setIfInBounds bound rank = forest.semi.setIfInBounds bound rank
    rw [h.semi_eq]

/-- Searches keep the forests alike. -/
theorem Served.eval (h : Served size parent bound forest plain) (d : Descends size parent)
    (hbv : bound ≤ v) (hv : v < size) : Served size parent bound (forest.eval v).1 plain := by
  obtain ⟨hlinked, hsemi, -⟩ := eval_covers d h.linked hbv hv
  exact ⟨hlinked, h.direct, h.semi_eq.trans hsemi.symm⟩

/-- Both forests stay side by side under all requests. -/
theorem Issued.served (h : Issued size bound requests) (d : Descends size parent) :
    Served size parent bound (compressed size parent requests)
      (uncompressed size parent requests) := by
  induction h with
  | nil => exact .ofSize
  | link hissued hpos ih =>
    rw [compressed_append, uncompressed, after_append]
    exact ih.link d _ hpos hissued.le_size
  | eval hissued hbv hv ih =>
    rw [compressed_append, uncompressed, after_append]
    exact ih.eval d hbv hv

/-! ### Searches with compression -/

/-- The way up from a vertex is compressed, however long it is. -/
inductive Compresses (forest : Forest) : Nat → Forest → Prop where
  | root {v : Nat} : forest.ancestor? v = none → Compresses forest v forest
  | short {v a : Nat} : forest.ancestor? v = some a → forest.ancestor? a = none →
      Compresses forest v forest
  | skip {v a b : Nat} {upper : Forest} : forest.ancestor? v = some a →
      forest.ancestor? a = some b → Compresses forest a upper → Compresses forest v (upper.skip v a)

/-- The bound on the number of links does not cut a search off. -/
theorem Linked.compresses (h : Linked size parent bound forest) {length : Nat} (hv : v < size)
    (hlength : v < length) : forest.Compresses v (compress length forest v) := by
  induction length generalizing v with
  | zero => omega
  | succ length ih =>
    rw [compress]
    cases hva : forest.ancestor? v with
    | none => exact .root hva
    | some a =>
      obtain ⟨a', ha', hcovers⟩ := h.linked (h.le_of_ancestor?_eq_some hva) hv
      obtain rfl : a' = a := Option.some.inj (ha'.symm.trans hva)
      have hlt := hcovers.lt
      dsimp only
      cases hroot : forest.ancestor? a' with
      | none => exact .short hva hroot
      | some b => exact .skip hva hroot (ih (by omega) (by omega))

/-- A search ends, and finds what a search link by link would find. -/
theorem Served.eval_eq (h : Served size parent bound forest plain) (d : Descends size parent)
    (hpos : 0 < bound) (hbv : bound ≤ v) (hv : v < size) :
    forest.Compresses v (forest.eval v).1 ∧ ∃ path, plain.Way v path ∧ (forest.eval v).2 ∈ path ∧
      (∀ u ∈ path, plain.semiOf (forest.eval v).2 ≤ plain.semiOf u) ∧
      (forest.eval v).2 = path.foldl plain.better v := by
  have hsize : v < forest.size := by
    show v < forest.ancestor.size
    rw [h.linked.ancestor_size]
    exact hv
  obtain ⟨-, -, a, ha, hcovers⟩ := eval_covers d h.linked hbv hv
  replace hcovers := hcovers.of_semi h.semi_eq
  generalize hfound : (forest.eval v).2 = b at hcovers
  obtain ⟨path, hway, hsorted, hmem⟩ := h.direct.exists_way d hpos hv
  have hb : b ∈ path := (hmem b).mpr ⟨hcovers.linked hcovers.inside.1 hcovers.inside.2,
    hcovers.inside.2⟩
  have hleast : ∀ u ∈ path, plain.semiOf b ≤ plain.semiOf u := by
    intro u hu
    obtain ⟨hu, huv⟩ := (hmem u).mp hu
    exact hcovers.least (by omega) huv
  have hnearest : ∀ u ∈ path, b < u → plain.semiOf b < plain.semiOf u :=
    fun u hu hbu => hcovers.nearest hbu ((hmem u).mp hu).2
  refine ⟨h.linked.compresses hv hsize, path, hway, hb, hleast, ?_⟩
  cases hway with
  | root hnone => cases hb
  | @up _ _ rest hup hrest =>
    have hself : plain.better v v = v := if_neg (Nat.lt_irrefl _)
    rw [foldl_cons, hself]
    exact (foldl_better hsorted hb hleast hnearest).symm

end Forest

/-! ### The sweep -/

namespace Sweep

open Forest (Issued compressed)

variable {edge : Nat → Nat → Prop} {w : Nat} {predecessors : List Nat} {sweep : Sweep}

/-- A forest is what requests have made of it. -/
def Serves (size : Nat) (parent : Nat → Nat) (bound : Nat) (forest : Forest) : Prop :=
  ∃ requests, Issued size bound requests ∧ forest = compressed size parent requests

/-- A search can be requested. -/
theorem Serves.eval (h : Serves size parent bound forest) (hbv : bound ≤ v) (hv : v < size) :
    Serves size parent bound (forest.eval v).1 := by
  obtain ⟨requests, hissued, rfl⟩ := h
  exact ⟨_, hissued.eval hbv hv, (Forest.compressed_append (.eval v)).symm⟩

/-- A link can be requested. -/
theorem Serves.link {rank : Nat} (h : Serves size parent (v + 1) forest) (hpos : 0 < v) :
    Serves size parent v ((forest.setSemi v rank).link (parent v) v) := by
  obtain ⟨requests, hissued, rfl⟩ := h
  exact ⟨_, hissued.link hpos, (Forest.compressed_append (.link v rank)).symm⟩

/-- Lowering requests searches. -/
theorem Serves.foldl_lower {state : Forest × Nat} (h : Serves size parent (w + 1) state.1)
    (hpred : ∀ v ∈ predecessors, v < size) :
    Serves size parent (w + 1) (predecessors.foldl (lower w) state).1 := by
  induction predecessors generalizing state with
  | nil => exact h
  | cons v rest ih =>
    obtain ⟨hv, hrest⟩ := forall_mem_cons.mp hpred
    refine ih ?_ hrest
    rw [lower]
    split
    · exact h
    · next hgt => exact h.eval (Nat.lt_of_not_le hgt) hv

/-- Judging requests searches. -/
theorem Serves.foldl_judge {bucket : List Nat} (h : Serves size parent bound sweep.forest)
    (hbucket : ∀ v ∈ bucket, bound ≤ v ∧ v < size) :
    Serves size parent bound (bucket.foldl (judge w) sweep).forest := by
  induction bucket generalizing sweep with
  | nil => exact h
  | cons v rest ih =>
    obtain ⟨hv, hrest⟩ := forall_mem_cons.mp hbucket
    exact ih (h.eval hv.1 hv.2) hrest

/-- What the sweep asks of its forest for one vertex. -/
theorem Serves.process (h : Serves size parent (w + 1) sweep.forest)
    (hswept : Swept size parent edge (w + 1) sweep) (hpos : 0 < w) (hw : w < size)
    (hpred : ∀ v ∈ predecessors, v < size) :
    Serves size parent w (sweep.process w (parent w) predecessors).forest := by
  have hlowered : Serves size parent (w + 1)
      (predecessors.foldl (lower w) (sweep.forest, parent w)).1 := h.foldl_lower hpred
  unfold Sweep.process
  refine Serves.foldl_judge (hlowered.link hpos) fun v hv => ?_
  rcases mem_getD_modify.mp hv with ⟨-, -, rfl⟩ | hv
  · exact ⟨Nat.le_refl _, hw⟩
  · have hwaiting := hswept.waiting hv
    exact ⟨Nat.le_of_succ_le hwaiting.processed, hwaiting.lt_size⟩

/-- What the sweep asks of its forest for all vertices. -/
theorem Serves.processDown (t : SearchTree size parent edge) {predecessors : Nat → List Nat}
    (hpred : ∀ {v w}, w < size → (v ∈ predecessors w ↔ edge v w)) {last : Nat} {sweep : Sweep}
    (h : Serves size parent (last + 1) sweep.forest)
    (hswept : Swept size parent edge (last + 1) sweep)
    (hlast : last < size) :
    Serves size parent 1 (Sweep.processDown parent predecessors last sweep).forest := by
  induction last generalizing sweep with
  | zero => exact h
  | succ last ih =>
    rw [Sweep.processDown]
    have hbounded : ∀ v ∈ predecessors (last + 1), v < size :=
      fun v hv => (t.bounded ((hpred hlast).mp hv)).1
    exact ih (h.process hswept (Nat.succ_pos _) hlast hbounded)
      (process_spec t hswept (Nat.succ_pos _) hlast fun _ => hpred hlast) (by omega)

end Sweep

/-- The sweep over a flow graph keeps to the sequences of requests. -/
theorem FlowGraph.Sound.serves_sweep {cfg : FlowGraph} (h : cfg.Sound) :
    Sweep.Serves cfg.walk.entered.size cfg.walk.parent 1 cfg.sweep.forest := by
  have hpos := h.walk_size_pos
  have hfirst : Sweep.Serves cfg.walk.entered.size cfg.walk.parent (cfg.walk.entered.size - 1 + 1)
      (Sweep.ofSize cfg.walk.entered.size).forest := by
    rw [Nat.sub_add_cancel hpos]
    exact ⟨[], .nil, rfl⟩
  exact hfirst.processDown h.searchTree h.mem_numberedPredecessors h.swept_ofSize
    (Nat.sub_one_lt_of_lt hpos)

namespace Forest

/-- Path compression is transparent. After any sequence of requests, a search from a linked vertex
ends and finds a vertex of least rank on the way that the links as they were made lead up, without
its root: the very one that a search link by link would find. The sweep that finds the immediate
dominators of a flow graph makes such a sequence of requests, with the parents of the depth-first
search. -/
theorem compression_transparent :
    (∀ (size bound : Nat) (parent : Nat → Nat) (requests : List Request), Descends size parent →
      Issued size bound requests → ∀ v, bound ≤ v → v < size →
        (uncompressed size parent requests).semi = (compressed size parent requests).semi ∧
        (compressed size parent requests).Compresses v
          ((compressed size parent requests).eval v).1 ∧
        ∃ path, (uncompressed size parent requests).Way v path ∧
          ((compressed size parent requests).eval v).2 ∈ path ∧
          (∀ u ∈ path, (uncompressed size parent requests).semiOf
            ((compressed size parent requests).eval v).2 ≤
            (uncompressed size parent requests).semiOf u) ∧
          ((compressed size parent requests).eval v).2 =
            path.foldl (uncompressed size parent requests).better v) ∧
      ∀ cfg : FlowGraph, cfg.Assembled →
        cfg.idomNumbers cfg.walk = Sweep.dominators cfg.sweep.verdicts.toList ∧
        Descends cfg.walk.entered.size cfg.walk.parent ∧
        ∃ requests, Issued cfg.walk.entered.size 1 requests ∧
          cfg.sweep.forest = compressed cfg.walk.entered.size cfg.walk.parent requests := by
  refine ⟨fun size bound parent requests d hissued v hbv hv => ?_, fun cfg hcfg => ?_⟩
  · have hserved := hissued.served d
    have hpos : 0 < bound := hissued.pos (Nat.zero_lt_of_lt hv)
    exact ⟨hserved.semi_eq, hserved.eval_eq d hpos hbv hv⟩
  · exact ⟨cfg.idomNumbers_eq, hcfg.sound.searchTree.descends, hcfg.sound.serves_sweep⟩

/-- Parents on a way up from five, with two on a way of its own. -/
def climbing (v : Nat) : Nat :=
  if v = 3 then 1 else v - 1

/-- Links with searches in between. Four and three have the same rank. -/
def climbs : List Request :=
  [.link 5 3, .link 4 1, .eval 5, .link 3 1, .eval 5, .link 2 0]

/-- At the last search five is linked past four and three, and four is still found. -/
theorem compression_transparent_climbing :
    Descends 6 climbing ∧ Issued 6 2 climbs ∧ (compressed 6 climbing climbs).ancestor? 5 = some 1 ∧
      (uncompressed 6 climbing climbs).ancestor? 5 = some 4 ∧
        ((compressed 6 climbing climbs).eval 5).2 = 4 ∧
      (∃ path, (uncompressed 6 climbing climbs).Way 5 path ∧
        4 = path.foldl (uncompressed 6 climbing climbs).better 5) ∧
      FlowGraph.crossing.Assembled ∧
      ∃ requests, Issued FlowGraph.crossing.walk.entered.size 1 requests ∧
        FlowGraph.crossing.sweep.forest =
        compressed FlowGraph.crossing.walk.entered.size FlowGraph.crossing.walk.parent
          requests := by
  have hdescends : Descends 6 climbing := by
    constructor
    · intro v
      unfold climbing
      split <;> omega
    · intro v hpos hv
      unfold climbing
      split <;> omega
  have hissued : Issued 6 2 climbs :=
    .link (.eval (.link (.eval (.link (.link .nil (by omega)) (by omega)) (by omega) (by omega))
      (by omega)) (by omega) (by omega)) (by omega)
  have hfound : ((compressed 6 climbing climbs).eval 5).2 = 4 := by decide
  obtain ⟨-, -, path, hway, -, -, hbest⟩ :=
    compression_transparent.1 6 2 climbing climbs hdescends hissued 5 (by omega) (by omega)
  have hcrossing : FlowGraph.crossing.Assembled := .ofNodes ..
  obtain ⟨-, -, hsweep⟩ := compression_transparent.2 FlowGraph.crossing hcrossing
  exact ⟨hdescends, hissued, by decide, by decide, hfound, ⟨path, hway, hfound.symm.trans hbest⟩,
    hcrossing, hsweep⟩

end Forest

end Flowgraph
