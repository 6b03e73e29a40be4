import Flowgraph.Proofs.Flow.Build

/-!
# Resolving stubs

`Builder.Resolves` follows stubs to a node; from some places there is none, because the stubs lead
round in a circle. While stubs are being resolved, the edges into those done so far have a copy that
leads on to their destination (`Builder.Patching`). At the end every edge leads where its target
resolves to (`Builder.backpatch_spec`).
-/

namespace Flowgraph

open List Graph
open Relation (ReflTransGen TransGen)

namespace Graph

variable {α : Type} {g : Graph α}

/-- Add an edge to a node from each of several others. -/
def addEdgesTo (g : Graph α) (target : NodeId) (links : List Link) : Graph α :=
  links.foldl (fun g link => g.addEdge ⟨link.1, target, link.2⟩) g

section AddEdgesTo

variable {target id : NodeId} {links : List Link}

/-- New edges keep the payloads. -/
theorem payload?_addEdgesTo (id : NodeId) :
    (g.addEdgesTo target links).payload? id = g.payload? id :=
  foldl_keeps (f := (·.payload? id)) (fun _ _ _ => payload?_addEdge ..) g

/-- New edges enter their target only. -/
theorem incoming_addEdgesTo (h : target ≠ id) :
    (g.addEdgesTo target links).incoming id = g.incoming id :=
  foldl_keeps (f := (·.incoming id)) (fun _ _ _ => incoming_addEdge_of_ne h) g

/-- New edges between live nodes grow a graph. -/
theorem Grown.addEdgesTo (hg : g.Sound) (htarget : g.contains target)
    (hlinks : ∀ link ∈ links, g.contains link.1) : Grown g (g.addEdgesTo target links) :=
  (Grown.refl hg).foldl fun link hlink _ h => h.addEdge (h.live (hlinks link hlink))
    (h.live htarget)

/-- The links out of a node after new edges. -/
theorem mem_outgoing_addEdgesTo (hlinks : ∀ link ∈ links, g.contains link.1) {link : Link} :
    link ∈ (g.addEdgesTo target links).outgoing id ↔
      link ∈ g.outgoing id ∨ ((id, link.2) ∈ links ∧ link.1 = target) := by
  induction links generalizing g with
  | nil => simp [addEdgesTo]
  | cons first rest ih =>
    have hrest : ∀ link ∈ rest, (g.addEdge ⟨first.1, target, first.2⟩).contains link.1 :=
      fun link hlink => by simpa using hlinks link (mem_cons_of_mem _ hlink)
    refine (ih hrest).trans ?_
    rw [mem_outgoing_addEdge (hlinks first mem_cons_self)]
    obtain ⟨source, label⟩ := first
    obtain ⟨other, label'⟩ := link
    simp only [mem_cons, Prod.mk.injEq]
    tauto

end AddEdgesTo

end Graph

namespace Builder

variable {builder : Builder} {cfg : FlowGraph} {id stub last entry : NodeId}
  {dest : NodeId → NodeId}

/-! ### Following stubs -/

section Follow

variable {labels : NameMap NodeId} {stubs : NodeMap String} {place : NodeId} {rounds : Nat}
  {seen : List NodeId}

/-- A stub and the place of its label. -/
def Passes (labels : NameMap NodeId) (stubs : NodeMap String) (place next : NodeId) : Prop :=
  ∃ label, stubs[place]? = some label ∧ labels[label]? = some next

/-- Stubs followed from a place lead to a node. -/
inductive Resolves (labels : NameMap NodeId) (stubs : NodeMap String) : NodeId → NodeId → Prop where
  | here {place : NodeId} : stubs[place]? = none → Resolves labels stubs place place
  | pass {place next last : NodeId} : Passes labels stubs place next →
      Resolves labels stubs next last → Resolves labels stubs place last

/-- Control passes a place in one way. -/
theorem Passes.unique {next other : NodeId} (h : Passes labels stubs place next)
    (h' : Passes labels stubs place other) : next = other := by
  obtain ⟨label, hstub, hlabel⟩ := h
  obtain ⟨label', hstub', hlabel'⟩ := h'
  rw [hstub] at hstub'
  cases hstub'
  rw [hlabel] at hlabel'
  exact Option.some.inj hlabel'

/-- Places resolve to no stub. -/
theorem Resolves.not_stub (h : Resolves labels stubs place last) : stubs[last]? = none := by
  induction h with
  | here hnone => exact hnone
  | pass _ _ ih => exact ih

/-- The next place resolves alike. -/
theorem Resolves.next {place next last : NodeId} (h : Resolves labels stubs place last)
    (hpass : Passes labels stubs place next) : Resolves labels stubs next last := by
  cases h with
  | here hnone =>
    obtain ⟨label, hstub, -⟩ := hpass
    simp [hnone] at hstub
  | pass hpass' hrest => exact hpass'.unique hpass ▸ hrest

/-- Places resolve in one way. -/
theorem Resolves.unique {first second : NodeId} (h : Resolves labels stubs place first)
    (h' : Resolves labels stubs place second) : first = second := by
  induction h with
  | here hnone =>
    cases h' with
    | here => rfl
    | pass hpass _ =>
      obtain ⟨label, hstub, -⟩ := hpass
      simp [hnone] at hstub
  | pass hpass _ ih => exact ih (h'.next hpass)

/-- From a circle of stubs no node is found. -/
theorem Resolves.not_circular (h : Resolves labels stubs place last) :
    ¬ TransGen (Passes labels stubs) place place := by
  induction h with
  | here hnone =>
    intro hcircle
    obtain ⟨next, ⟨label, hstub, -⟩, -⟩ := TransGen.head'_iff.mp hcircle
    simp [hnone] at hstub
  | @pass place next last hpass _ ih =>
    intro hcircle
    obtain ⟨next', hpass', hback⟩ := TransGen.head'_iff.mp hcircle
    obtain rfl := hpass.unique hpass'
    exact ih (TransGen.tail' hback hpass)

variable {next : NodeId}

/-- A stub not passed before is passed. -/
theorem follow_pass (h : Passes labels stubs place next) (hnew : place ∉ seen) :
    follow labels stubs (rounds + 1) seen place =
      follow labels stubs rounds (place :: seen) next := by
  obtain ⟨label, hstub, hlabel⟩ := h
  simp [follow, hstub, hlabel, hnew]

/-- A stub passed before closes a circle. -/
theorem follow_seen (h : Passes labels stubs place next) (hseen : place ∈ seen) :
    follow labels stubs rounds seen place = .ok (.circle place) := by
  obtain ⟨label, hstub, -⟩ := h
  cases rounds with
  | zero => rfl
  | succ rounds => simp [follow, hstub, hseen]

/-- If all labels of stubs stand somewhere, stubs can be followed. -/
theorem exists_follow (h : ∀ {id : NodeId} {label : String}, stubs[id]? = some label →
      ∃ place : NodeId, labels[label]? = some place) (rounds : Nat) (seen : List NodeId)
    (place : NodeId) : ∃ destination, follow labels stubs rounds seen place = .ok destination := by
  induction rounds generalizing seen place with
  | zero => exact ⟨_, rfl⟩
  | succ rounds ih =>
    rw [follow]
    split
    · exact ⟨_, rfl⟩
    next label hstub =>
    split
    · exact ⟨_, rfl⟩
    obtain ⟨target, htarget⟩ := h hstub
    simp only [htarget]
    exact ih _ _

/-- Following jumps resolves a place. -/
theorem follow_node (h : follow labels stubs rounds seen place = .ok (.node last)) :
    Resolves labels stubs place last := by
  induction rounds generalizing seen place with
  | zero => cases h
  | succ rounds ih =>
    rw [follow] at h
    split at h
    · next hnone =>
      cases h
      exact .here hnone
    next label hstub =>
    split at h
    · cases h
    split at h
    · cases h
    next target hlabel => exact .pass ⟨label, hstub, hlabel⟩ (ih h)

/-- No node is found from stubs that lead to a circle. -/
theorem Resolves.not_leading_round (h : Resolves labels stubs place last)
    (hround : ReflTransGen (Passes labels stubs) place entry) :
    ¬ TransGen (Passes labels stubs) entry entry := by
  induction hround using ReflTransGen.head_induction_on with
  | refl => exact h.not_circular
  | head hpass _ ih => exact ih (h.next hpass)

/-- Stubs found to lead round lead to a circle, if more rounds are left than stubs not seen. -/
theorem follow_circle (all : List NodeId)
    (hall : ∀ {id : NodeId} {label : String}, stubs[id]? = some label → id ∈ all)
    (hseen : ∀ id ∈ seen, id ∈ all ∧ TransGen (Passes labels stubs) id place) (hnodup : seen.Nodup)
    (hrounds : all.length < rounds + seen.length)
    (h : follow labels stubs rounds seen place = .ok (.circle entry)) :
    ReflTransGen (Passes labels stubs) place entry ∧
      TransGen (Passes labels stubs) entry entry := by
  induction rounds generalizing seen place with
  | zero =>
    have hle := (hnodup.subperm fun id hid => (hseen id hid).1).length_le
    omega
  | succ rounds ih =>
    rw [follow] at h
    split at h
    · cases h
    next label hstub =>
    split at h
    · next hagain =>
      obtain rfl : place = entry := Destination.circle.inj (Except.ok.inj h)
      exact ⟨.refl, (hseen place (by simpa using hagain)).2⟩
    next hnew =>
    split at h
    · cases h
    next target hlabel =>
    have hpass : Passes labels stubs place target := ⟨label, hstub, hlabel⟩
    have hrest : ∀ id ∈ place :: seen, id ∈ all ∧ TransGen (Passes labels stubs) id target := by
      intro id hid
      rcases mem_cons.mp hid with rfl | hid
      · exact ⟨hall hstub, .single hpass⟩
      · exact ⟨(hseen id hid).1, (hseen id hid).2.tail hpass⟩
    obtain ⟨hleads, hround⟩ := ih hrest (nodup_cons.mpr ⟨by simpa using hnew, hnodup⟩)
      (by simp only [length_cons]; omega) h
    exact ⟨.head hpass hleads, hround⟩

end Follow

/-! ### Destinations -/

section Destination

variable {label : String} {next : NodeId}

/-- Stubs of the builder followed from a place lead to a node. -/
abbrev LeadsTo (builder : Builder) (place last : NodeId) : Prop :=
  Resolves builder.labels builder.stubs place last

/-- The stubs of a builder. -/
def stubIds (builder : Builder) : List NodeId :=
  builder.pending.map Prod.fst

section

variable (h : Valid builder)
include h

/-- Stubs are the pending jumps. -/
theorem Valid.stubs_eq_some : builder.stubs[id]? = some label ↔ (id, label) ∈ builder.pending := by
  have hdistinct : builder.pending.Pairwise fun a b => ¬ compare a.1 b.1 = .eq :=
    (pairwise_map.mp h.nodup).imp fun hne => by simpa using hne
  have hof : ∀ {label}, (id, label) ∈ builder.pending → builder.stubs[id]? = some label :=
    fun hentry => Std.ExtTreeMap.getElem?_ofList_of_mem (k := id) (by simp) hdistinct hentry
  refine ⟨fun hlabel => ?_, hof⟩
  have hmem : id ∈ builder.stubs := by
    rw [Std.ExtTreeMap.mem_iff_isSome_getElem?, hlabel, Option.isSome_some]
  obtain ⟨⟨_, other⟩, hentry, rfl⟩ : ∃ entry ∈ builder.pending, entry.1 = id := by
    simpa [stubs, Std.ExtTreeMap.mem_ofList] using hmem
  rw [hof hentry] at hlabel
  exact Option.some.inj hlabel ▸ hentry

/-- Other nodes are no stubs. -/
theorem Valid.stubs_eq_none : builder.stubs[id]? = none ↔ id ∉ builder.stubIds := by
  rw [← not_iff_not, not_not, ← ne_eq, Option.ne_none_iff_exists']
  simp only [h.stubs_eq_some, stubIds, mem_map]
  constructor
  · rintro ⟨label, hentry⟩
    exact ⟨_, hentry, rfl⟩
  · rintro ⟨⟨_, label⟩, hentry, rfl⟩
    exact ⟨label, hentry⟩

/-- Stubs are live. -/
theorem Valid.contains_of_mem_stubIds (hid : id ∈ builder.stubIds) :
    builder.cfg.contains id := by
  obtain ⟨⟨_, label⟩, hentry, rfl⟩ := mem_map.mp hid
  obtain ⟨span, hnode⟩ := h.stub hentry
  exact contains_of_payload? hnode

/-- From a live place stubs lead to a live node. -/
theorem Valid.contains_of_leadsTo {place : NodeId} (hleads : LeadsTo builder place last)
    (hplace : builder.cfg.contains place) : builder.cfg.contains last := by
  induction hleads with
  | here => exact hplace
  | pass hpass _ ih =>
    obtain ⟨label, -, hlabel⟩ := hpass
    exact ih (h.labels hlabel)

end

/-- Resolved stubs lead to their node. -/
theorem leadsTo_of_resolve (h : builder.resolve id = .ok (.node last)) : LeadsTo builder id last :=
  follow_node h

variable (h : Valid builder)
include h

/-- A stub that leads round leads to a circle of stubs. -/
theorem Valid.circle_of_resolve (hresolve : builder.resolve id = .ok (.circle entry)) :
    ReflTransGen (Passes builder.labels builder.stubs) id entry ∧
      TransGen (Passes builder.labels builder.stubs) entry entry := by
  refine follow_circle builder.stubIds (fun hstub => ?_) (by simp) nodup_nil
    (by simp [stubIds]) hresolve
  exact mem_map.mpr ⟨_, h.stubs_eq_some.mp hstub, rfl⟩

/-- Stubs on a circle lead nowhere. -/
theorem Valid.not_leadsTo_of_resolve (hresolve : builder.resolve id = .ok (.circle entry))
    (last : NodeId) : ¬ LeadsTo builder id last := by
  obtain ⟨hleads, hround⟩ := h.circle_of_resolve hresolve
  exact fun hlast => hlast.not_leading_round hleads hround

/-- A stub that was resolved has a label that stands somewhere. -/
theorem Valid.passes_of_resolve {destination : Destination} (hentry : (id, label) ∈ builder.pending)
    (hresolve : builder.resolve id = .ok destination) :
    ∃ place, builder.labels[label]? = some place := by
  simp only [resolve, follow, h.stubs_eq_some.mpr hentry, contains_nil,
    Bool.false_eq_true, if_false] at hresolve
  split at hresolve
  · cases hresolve
  · next place hlabel => exact ⟨place, hlabel⟩

/-- Only stubs are passed. -/
theorem Valid.mem_stubIds_of_passes (hpass : Passes builder.labels builder.stubs id next) :
    id ∈ builder.stubIds := by
  obtain ⟨label, hstub, -⟩ := hpass
  exact mem_map.mpr ⟨_, h.stubs_eq_some.mp hstub, rfl⟩

/-- Where a stub is passed there are rounds enough to pass it. -/
theorem Valid.exists_length_eq (hpass : Passes builder.labels builder.stubs id next) :
    ∃ n, builder.pending.length = n + 1 := by
  obtain ⟨label, hstub, -⟩ := hpass
  exact Nat.exists_eq_add_one.mpr (length_pos_of_mem (h.stubs_eq_some.mp hstub))

/-- A stub whose label stands at a node leads there. -/
theorem Valid.resolve_of_passes (hpass : Passes builder.labels builder.stubs id next)
    (hnext : next ∉ builder.stubIds) :
    builder.resolve id = .ok (.node next) := by
  obtain ⟨n, hlength⟩ := h.exists_length_eq hpass
  rw [resolve, hlength, follow_pass hpass not_mem_nil, follow, h.stubs_eq_none.mpr hnext]

/-- A stub whose label stands at a stub for itself leads round there. -/
theorem Valid.resolve_of_circle (hpass : Passes builder.labels builder.stubs id next)
    (hround : Passes builder.labels builder.stubs next next) :
    builder.resolve id = .ok (.circle next) := by
  obtain ⟨n, hlength⟩ := h.exists_length_eq hpass
  rw [resolve, hlength, follow_pass hpass not_mem_nil]
  by_cases hsame : next = id
  · exact follow_seen hround (by simp [hsame])
  · rw [follow_pass hround (by simpa using hsame)]
    exact follow_seen hround mem_cons_self

end Destination

/-! ### Resolving stubs one by one -/

section Patching

variable {done : List NodeId} {patch : Patch} {spins : NodeMap NodeId} {fresh : NodeId}

/-- The node to which a resolved stub leads, or the spin of its circle. -/
def Ends (builder : Builder) (spins : NodeMap NodeId) (id last : NodeId) : Prop :=
  builder.resolve id = .ok (.node last) ∨
    ∃ entry, builder.resolve id = .ok (.circle entry) ∧ spins[entry]? = some last

/-- Stubs end in one node. -/
theorem Ends.unique {first second : NodeId} (h : Ends builder spins id first)
    (h' : Ends builder spins id second) : first = second := by
  rcases h with h | ⟨entry, h, hspin⟩ <;> rcases h' with h' | ⟨entry', h', hspin'⟩ <;>
    rw [h] at h' <;> cases h'
  · rfl
  · exact Option.some.inj (hspin.symm.trans hspin')

/-- Some stubs are resolved: edges into them have a copy to where they end. Nothing else changed for
the builder's nodes, and new nodes are spins. -/
structure Patching (builder : Builder) (done : List NodeId) (patch : Patch) : Prop where
  grown : Grown builder.cfg.toGraph patch.graph
  node : ∀ {id}, builder.cfg.contains id → patch.graph.payload? id = builder.cfg.payload? id
  spin : ∀ {entry spin : NodeId}, patch.spins[entry]? = some spin →
    builder.cfg.contains spin = false ∧
      patch.graph.payload? spin = some (.spin (builder.cfg.spanOf entry))
  apart : ∀ {entry other spin : NodeId}, patch.spins[entry]? = some spin →
    patch.spins[other]? = some spin → entry = other
  stays : ∀ {entry spin : NodeId}, patch.spins[entry]? = some spin →
    patch.graph.outgoing spin = [(spin, none)]
  live : ∀ {id}, patch.graph.contains id →
    builder.cfg.contains id ∨ ∃ entry : NodeId, patch.spins[entry]? = some id
  incoming : ∀ {id}, id ∈ builder.stubIds → patch.graph.incoming id = builder.cfg.incoming id
  ends : ∀ {id}, id ∈ done → ∃ last, Ends builder patch.spins id last
  outgoing : ∀ {id link}, builder.cfg.contains id →
    (link ∈ patch.graph.outgoing id ↔ link ∈ builder.cfg.outgoing id ∨
      ∃ stub ∈ done, (stub, link.2) ∈ builder.cfg.outgoing id ∧
      Ends builder patch.spins stub link.1)

/-- Before the first stub is patched. -/
theorem Patching.opening (h : Valid builder) : Patching builder [] ⟨builder.cfg.toGraph, ∅⟩ where
  grown := .refl h.sound.graph
  node _ := rfl
  spin hspin := by simp at hspin
  apart hspin := by simp at hspin
  stays hspin := by simp at hspin
  live hid := .inl hid
  incoming _ := rfl
  ends hid := by simp at hid
  outgoing _ := by simp

/-- A new spin is that of its circle, and no other is forgotten. -/
theorem getElem?_insert_spin {other spin : NodeId} (hnew : spins[entry]? = none) :
    (spins.insert entry fresh)[other]? = some spin ↔
      entry = other ∧ fresh = spin ∨ spins[other]? = some spin := by
  rw [Std.ExtTreeMap.getElem?_insert]
  by_cases heq : entry = other
  · subst heq
    simp [hnew]
  · simp [heq]

/-- A new spin keeps where stubs end. -/
theorem Ends.insert (h : Ends builder spins id last) (hnew : spins[entry]? = none) :
    Ends builder (spins.insert entry fresh) id last :=
  h.imp_right fun ⟨other, hcircle, hspin⟩ =>
    ⟨other, hcircle, (getElem?_insert_spin hnew).mpr (.inr hspin)⟩

section

variable (h : Patching builder done patch)
include h

/-- Spins are not the next node. -/
theorem Patching.spin_ne_nextId {spin : NodeId} (hspin : patch.spins[entry]? = some spin) :
    spin ≠ patch.graph.nextId :=
  ne_nextId_of_contains (contains_of_payload? (h.spin hspin).2)

/-- Nodes read are not the next node. -/
theorem Patching.ne_nextId (hid : builder.cfg.contains id) : id ≠ patch.graph.nextId :=
  ne_nextId_of_contains (h.grown.live hid)

/-- A spin made for a circle that was not met before. -/
theorem Patching.addSpin (hvalid : Valid builder) (hnew : patch.spins[entry]? = none) :
    Patching builder done ⟨(patch.graph.insert (.spin (builder.cfg.spanOf entry))).addEdge
      ⟨patch.graph.nextId, patch.graph.nextId, none⟩,
      patch.spins.insert entry patch.graph.nextId⟩ := by
  have hself : (patch.graph.insert (.spin (builder.cfg.spanOf entry))).contains
      patch.graph.nextId := by
    simp [Graph.contains_insert]
  refine ⟨(h.grown.insert _).addEdge hself hself, fun hid => ?node, fun hspin => ?spin,
    fun hfirst hsecond => ?apart, fun hspin => ?stays, fun hid => ?live, fun hid => ?incoming,
    fun hid => ?ends, fun hid => ?outgoing⟩
  case node => simpa [payload?_insert, h.ne_nextId hid] using h.node hid
  case spin =>
    rcases (getElem?_insert_spin hnew).mp hspin with ⟨rfl, rfl⟩ | hspin
    · refine ⟨?_, by simp [payload?_insert]⟩
      by_contra hlive
      exact h.ne_nextId (by simpa using hlive) rfl
    · have hne := h.spin_ne_nextId hspin
      exact ⟨(h.spin hspin).1, by simpa [payload?_insert, hne] using (h.spin hspin).2⟩
  case apart =>
    rcases (getElem?_insert_spin hnew).mp hfirst with ⟨rfl, rfl⟩ | hfirst <;>
      rcases (getElem?_insert_spin hnew).mp hsecond with ⟨rfl, hsame⟩ | hsecond
    · rfl
    · exact absurd rfl (h.spin_ne_nextId hsecond)
    · exact absurd hsame.symm (h.spin_ne_nextId hfirst)
    · exact h.apart hfirst hsecond
  case stays =>
    rcases (getElem?_insert_spin hnew).mp hspin with ⟨rfl, rfl⟩ | hspin
    · refine outgoing_addEdge_first hself ?_
      rw [outgoing_insert, outgoing_eq_nil (contains_nextId _)]
    · rw [outgoing_addEdge_of_ne (h.spin_ne_nextId hspin).symm, outgoing_insert,
        h.stays hspin]
  case live =>
    rw [Graph.contains_addEdge, Graph.contains_insert, Bool.or_eq_true, decide_eq_true_eq] at hid
    rcases hid with rfl | hid
    · exact .inr ⟨entry, by simp⟩
    · exact (h.live hid).imp_right fun ⟨other, hother⟩ =>
        ⟨other, (getElem?_insert_spin hnew).mpr (.inr hother)⟩
  case incoming =>
    have hne := h.ne_nextId (hvalid.contains_of_mem_stubIds hid)
    rw [incoming_addEdge_of_ne hne.symm, Graph.incoming_insert, h.incoming hid]
  case ends =>
    obtain ⟨last, hends⟩ := h.ends hid
    exact ⟨last, hends.insert hnew⟩
  case outgoing =>
    rw [outgoing_addEdge_of_ne (h.ne_nextId hid).symm, outgoing_insert, h.outgoing hid]
    refine or_congr_right (exists_congr fun stub => and_congr_right fun hdone =>
      and_congr_right fun _ => ⟨fun hends => hends.insert hnew, fun hends => ?_⟩)
    -- a resolved stub has its end already, so the new spin is not that of its circle
    obtain ⟨last, hlast⟩ := h.ends hdone
    exact (hlast.insert hnew).unique hends ▸ hlast

end

/-- The node at the destination of a stub. -/
theorem Patching.nodeAt (h : Patching builder done patch) (hvalid : Valid builder) {stub : NodeId}
    {destination : Destination} (hresolve : builder.resolve stub = .ok destination) :
    Patching builder done (patch.nodeAt builder.cfg.spanOf destination).1 ∧
      Ends builder (patch.nodeAt builder.cfg.spanOf destination).1.spins stub
        (patch.nodeAt builder.cfg.spanOf destination).2 := by
  cases destination with
  | node id => exact ⟨h, .inl hresolve⟩
  | circle entry =>
    rw [Patch.nodeAt]
    cases hspin : patch.spins[entry]? with
    | some spin => exact ⟨h, .inr ⟨entry, hresolve, hspin⟩⟩
    | none => exact ⟨h.addSpin hvalid hspin, .inr ⟨entry, hresolve, by simp⟩⟩

section

variable (h : Patching builder done patch) (hvalid : Valid builder) (hstub : stub ∈ builder.stubIds)
  (hends : Ends builder patch.spins stub last)
include h hvalid hstub hends

/-- Where a stub ends there is a live node, and no stub. -/
theorem Patching.live_of_ends : patch.graph.contains last ∧ last ∉ builder.stubIds := by
  rcases hends with hnode | ⟨entry, -, hspin⟩
  · have hleads := leadsTo_of_resolve hnode
    exact ⟨h.grown.live (hvalid.contains_of_leadsTo hleads (hvalid.contains_of_mem_stubIds hstub)),
      hvalid.stubs_eq_none.mp hleads.not_stub⟩
  · obtain ⟨hdead, hpayload⟩ := h.spin hspin
    refine ⟨contains_of_payload? hpayload, fun hmem => ?_⟩
    simp [hvalid.contains_of_mem_stubIds hmem] at hdead

/-- One more stub is resolved. -/
theorem Patching.copyIncoming :
    Patching builder (done ++ [stub]) (patch.copyIncoming stub last) := by
  obtain ⟨hlive, hnot⟩ := h.live_of_ends hvalid hstub hends
  have hsources : ∀ link ∈ patch.graph.incoming stub, patch.graph.contains link.1 :=
    fun link hlink => h.grown.sound.contains_source hlink
  have hgrown : Grown patch.graph (patch.graph.addEdgesTo last (patch.graph.incoming stub)) :=
    .addEdgesTo h.grown.sound hlive hsources
  refine ⟨h.grown.trans hgrown, fun hid => ?_, fun hspin => ?_, h.apart,
    fun {entry spin} hspin => ?_, fun {id} hid => ?_, fun {id} hid => ?_, fun {id} hid => ?_,
    fun {id link} hid => ?_⟩
  · exact (payload?_addEdgesTo _).trans (h.node hid)
  · obtain ⟨hdead, hpayload⟩ := h.spin hspin
    exact ⟨hdead, (payload?_addEdgesTo _).trans hpayload⟩
  · -- edges into stubs do not come from spins
    refine hgrown.sound.outgoing_eq_singleton fun link => ?_
    rw [mem_outgoing_addEdgesTo hsources, h.stays hspin, mem_singleton]
    refine or_iff_left fun ⟨hlink, _⟩ => ?_
    rw [h.incoming hstub] at hlink
    have hsource : builder.cfg.contains spin := hvalid.sound.graph.contains_source hlink
    exact Bool.noConfusion ((h.spin hspin).1.symm.trans hsource)
  · refine h.live ?_
    rw [← payload?_isSome] at hid ⊢
    rwa [show (patch.copyIncoming stub last).graph.payload? id = patch.graph.payload? id from
      payload?_addEdgesTo _] at hid
  · have hne : last ≠ id := fun heq => hnot (heq ▸ hid)
    exact (incoming_addEdgesTo hne).trans (h.incoming hid)
  · rcases mem_append.mp hid with hid | hid
    · exact h.ends hid
    · exact ⟨last, mem_singleton.mp hid ▸ hends⟩
  · refine (mem_outgoing_addEdgesTo hsources).trans ?_
    rw [h.outgoing hid, h.incoming hstub, ← hvalid.sound.graph.mirrored, or_assoc]
    refine or_congr_right ?_
    simp only [mem_append, mem_singleton, or_and_right, exists_or, exists_eq_left]
    refine or_congr_right (and_congr_right fun _ => ⟨?_, fun hlast => ?_⟩)
    · rintro rfl
      exact hends
    · exact hlast.unique hends

end

/-- Stubs are resolved in turn. -/
theorem Patching.patchAll (h : Patching builder done patch) (hvalid : Valid builder)
    {entries : List (NodeId × String)} (hentries : ∀ entry ∈ entries, entry ∈ builder.pending)
    {patch' : Patch} (hpatch : builder.patchAll patch entries = .ok patch') :
    Patching builder (done ++ entries.map Prod.fst) patch' := by
  induction entries generalizing done patch with
  | nil =>
    cases hpatch
    simpa using h
  | cons entry rest ih =>
    obtain ⟨stub, label⟩ := entry
    have hstub : stub ∈ builder.stubIds :=
      mem_map.mpr ⟨_, hentries _ mem_cons_self, rfl⟩
    rw [Builder.patchAll] at hpatch
    split at hpatch
    · cases hpatch
    next destination hresolve =>
    obtain ⟨hplaced, hends⟩ := h.nodeAt hvalid hresolve
    have hall := ih (hplaced.copyIncoming hvalid hstub hends)
      (fun entry hentry => hentries entry (mem_cons_of_mem _ hentry)) hpatch
    simpa using hall

/-- Every stub was resolved if all were patched. -/
theorem resolve_of_patchAll {entries : List (NodeId × String)} {patch' : Patch}
    (h : builder.patchAll patch entries = .ok patch') :
    ∀ entry ∈ entries, ∃ destination, builder.resolve entry.1 = .ok destination := by
  induction entries generalizing patch with
  | nil => simp
  | cons entry rest ih =>
    rw [patchAll] at h
    split at h
    · cases h
    next destination hresolve =>
    intro other hother
    rcases mem_cons.mp hother with rfl | hother
    · exact ⟨destination, hresolve⟩
    · exact ih h other hother

end Patching

/-! ### The graph without stubs -/

/-- The patched graph without the stubs. -/
def Patch.cleared (patch : Patch) (builder : Builder) : FlowGraph :=
  builder.cfg.withGraph (builder.stubIds.foldl Graph.erase patch.graph)

/-- Backpatching patches, then clears. -/
theorem backpatch_eq_ok : builder.backpatch = .ok cfg ↔
    ∃ patch, builder.patchAll ⟨builder.cfg.toGraph, ∅⟩ builder.pending = .ok patch ∧
      cfg = patch.cleared builder := by
  rw [backpatch]
  cases builder.patchAll ⟨builder.cfg.toGraph, ∅⟩ builder.pending with
  | error error => simp
  | ok patch => simp [Patch.cleared, stubIds, foldl_map, eq_comm]

/-- Backpatching succeeds if the labels of all stubs stand somewhere. -/
theorem Valid.exists_backpatch (h : Valid builder)
    (hlabels : ∀ {id : NodeId} {label : String}, (id, label) ∈ builder.pending →
      ∃ place : NodeId, builder.labels[label]? = some place) :
    ∃ cfg, builder.backpatch = .ok cfg := by
  have hall : ∀ (entries : List (NodeId × String)) (patch : Patch),
      ∃ patch', builder.patchAll patch entries = .ok patch' := by
    intro entries
    induction entries with
    | nil => exact fun patch => ⟨patch, rfl⟩
    | cons entry rest ih =>
      intro patch
      obtain ⟨destination, hdestination⟩ : ∃ destination,
          builder.resolve entry.1 = .ok destination :=
        exists_follow (fun hstub => hlabels (h.stubs_eq_some.mp hstub)) _ _ _
      simp only [patchAll, hdestination]
      exact ih _
  obtain ⟨patch, hpatch⟩ := hall builder.pending ⟨builder.cfg.toGraph, ∅⟩
  exact ⟨_, backpatch_eq_ok.mpr ⟨patch, hpatch, rfl⟩⟩

/-- A place leads to a node, or to a spin if it leads to none. -/
def Leads (builder : Builder) (cfg : FlowGraph) (place id : NodeId) : Prop :=
  LeadsTo builder place id ∨
    (∀ last, ¬ LeadsTo builder place last) ∧ ∃ span, cfg.node? id = some (.spin span)

/-- The edges of a builder lead where their targets resolve to, given by `dest`. At a place that
resolves to no node there is a spin, named after the stub at which the circle closes, and different
circles have different spins. -/
structure Resolved (builder : Builder) (cfg : FlowGraph) (dest : NodeId → NodeId) : Prop where
  sound : cfg.Sound
  start : cfg.start = builder.cfg.start
  node : ∀ {id}, cfg.contains id → builder.cfg.contains id →
    cfg.node? id = builder.cfg.node? id
  stays : ∀ {place}, place ∉ builder.stubIds → dest place = place
  ends : ∀ {stub}, stub ∈ builder.stubIds → builder.resolve stub = .ok (.node (dest stub)) ∨
    ∃ entry, builder.resolve stub = .ok (.circle entry) ∧ (cfg.contains (dest stub) →
      cfg.node? (dest stub) = some (.spin (builder.cfg.spanOf entry)))
  circles : ∀ {stub other entry entry'}, stub ∈ builder.stubIds → other ∈ builder.stubIds →
    builder.resolve stub = .ok (.circle entry) → builder.resolve other = .ok (.circle entry') →
    (dest stub = dest other ↔ entry = entry')
  outgoing : ∀ {id link}, cfg.contains id → builder.cfg.contains id →
    (link ∈ cfg.outgoing id ↔ ∃ place, (place, link.2) ∈ builder.cfg.outgoing id ∧
      link.1 = dest place)
  labels : ∀ {id label}, (id, label) ∈ builder.pending → ∃ place : NodeId,
    builder.labels[label]? = some place
  live : ∀ {id}, cfg.contains id → builder.cfg.contains id ∧ id ∉ builder.stubIds ∨
    (∃ span, cfg.node? id = some (.spin span)) ∧ cfg.outgoing id = [(id, none)]

/-- The start node is no stub. -/
theorem Valid.start_not_mem_stubIds (h : Valid builder) : builder.cfg.start ∉ builder.stubIds := by
  intro hmem
  obtain ⟨⟨id, label⟩, hentry, hid⟩ := mem_map.mp hmem
  obtain ⟨span, hstub⟩ := h.stub hentry
  obtain ⟨span', hstart⟩ := h.start
  rw [show id = builder.cfg.start from hid, hstart] at hstub
  cases hstub

/-- A stub whose circle was found ends at the spin of this circle. -/
theorem Ends.spin {spins : NodeMap NodeId} {stub last entry : NodeId}
    (h : Ends builder spins stub last) (hresolve : builder.resolve stub = .ok (.circle entry)) :
    spins[entry]? = some last := by
  rcases h with hnode | ⟨entry', hcircle, hspin⟩
  · rw [hresolve] at hnode
    cases hnode
  · rw [hresolve] at hcircle
    obtain rfl : entry = entry' := Destination.circle.inj (Except.ok.inj hcircle)
    exact hspin

section Cleared

variable {patch : Patch}

/-- Clearing takes the stubs only. -/
theorem Patch.contains_cleared : (patch.cleared builder).contains id ↔
    patch.graph.contains id ∧ id ∉ builder.stubIds := by
  simp [Patch.cleared, FlowGraph.withGraph, contains_foldl_erase, and_comm]

/-- Clearing keeps the other nodes. -/
theorem Patch.node?_cleared (hid : id ∉ builder.stubIds) :
    (patch.cleared builder).node? id = patch.graph.payload? id :=
  payload?_foldl_erase hid

/-- Clearing takes the links to stubs. -/
theorem Patch.outgoing_cleared (hid : id ∉ builder.stubIds) :
    (patch.cleared builder).outgoing id =
      (patch.graph.outgoing id).filter (·.1 ∉ builder.stubIds) :=
  outgoing_foldl_erase hid

/-- Every place has a destination when all stubs are resolved. -/
theorem Patching.exists_dest (h : Patching builder builder.stubIds patch) :
    ∃ dest : NodeId → NodeId, (∀ id, id ∉ builder.stubIds → dest id = id) ∧
      ∀ id, id ∈ builder.stubIds → Ends builder patch.spins id (dest id) := by
  have hchoice : ∀ id, ∃ last, (id ∉ builder.stubIds → last = id) ∧
      (id ∈ builder.stubIds → Ends builder patch.spins id last) := by
    intro id
    by_cases hid : id ∈ builder.stubIds
    · obtain ⟨last, hends⟩ := h.ends hid
      exact ⟨last, fun hnot => absurd hid hnot, fun _ => hends⟩
    · exact ⟨id, fun _ => rfl, fun hmem => absurd hmem hid⟩
  choose dest hdest using hchoice
  exact ⟨dest, fun id => (hdest id).1, fun id => (hdest id).2⟩

variable (h : Patching builder builder.stubIds patch) (hvalid : Valid builder)
  (hstays : ∀ id, id ∉ builder.stubIds → dest id = id)
  (hends : ∀ id, id ∈ builder.stubIds → Ends builder patch.spins id (dest id))
include h hvalid hstays hends

/-- What is left are the edges to the destinations of their targets. -/
theorem Patching.mem_outgoing_cleared (hid : id ∉ builder.stubIds)
    (hlive : builder.cfg.contains id) {link : NodeId × Label} :
    link ∈ (patch.cleared builder).outgoing id ↔
      ∃ place, (place, link.2) ∈ builder.cfg.outgoing id ∧ link.1 = dest place := by
  rw [Patch.outgoing_cleared hid, mem_filter, h.outgoing hlive, decide_eq_true_eq]
  constructor
  · intro ⟨hlink, hnot⟩
    rcases hlink with hlink | ⟨stub, hstub, hlink, hlast⟩
    · exact ⟨link.1, hlink, (hstays _ hnot).symm⟩
    · exact ⟨stub, hlink, hlast.unique (hends stub hstub)⟩
  · intro ⟨place, hlink, heq⟩
    by_cases hplace : place ∈ builder.stubIds
    · have hlast := hends place hplace
      rw [← heq] at hlast
      exact ⟨.inr ⟨place, hplace, hlink, hlast⟩, (h.live_of_ends hvalid hplace hlast).2⟩
    · rw [hstays place hplace] at heq
      rw [← heq] at hlink hplace
      exact ⟨.inl hlink, hplace⟩

/-- The graph without stubs is resolved. -/
theorem Patching.resolved
    (hlabels : ∀ {id : NodeId} {label : String}, (id, label) ∈ builder.pending →
      ∃ place : NodeId, builder.labels[label]? = some place) :
    Resolved builder (patch.cleared builder) dest where
  sound := ⟨h.grown.sound.foldl_erase _, Patch.contains_cleared.mpr
    ⟨h.grown.live hvalid.sound.start, hvalid.start_not_mem_stubIds⟩⟩
  start := rfl
  node hid hlive := (Patch.node?_cleared (Patch.contains_cleared.mp hid).2).trans (h.node hlive)
  stays hplace := hstays _ hplace
  ends {stub} hstub := by
    have hnot := (h.live_of_ends hvalid hstub (hends stub hstub)).2
    refine (hends stub hstub).imp_right fun ⟨entry, hresolve, hspin⟩ =>
      ⟨entry, hresolve, fun _ => ?_⟩
    exact (Patch.node?_cleared hnot).trans (h.spin hspin).2
  circles {stub other entry entry'} hstub hother hcircle hcircle' := by
    have hspin := (hends stub hstub).spin hcircle
    have hspin' := (hends other hother).spin hcircle'
    refine ⟨fun hsame => h.apart hspin (hsame ▸ hspin'), fun heq => ?_⟩
    subst heq
    exact Option.some.inj (hspin.symm.trans hspin')
  outgoing hid hlive :=
    h.mem_outgoing_cleared hvalid hstays hends (Patch.contains_cleared.mp hid).2 hlive
  labels := hlabels
  live {id} hid := by
    obtain ⟨hlive, hnot⟩ := Patch.contains_cleared.mp hid
    rcases h.live hlive with hold | ⟨entry, hspin⟩
    · exact .inl ⟨hold, hnot⟩
    · refine .inr ⟨⟨_, (Patch.node?_cleared hnot).trans (h.spin hspin).2⟩, ?_⟩
      rw [Patch.outgoing_cleared hnot, h.stays hspin]
      simp [hnot]

end Cleared

/-- Backpatching resolves all edges. -/
theorem backpatch_spec (h : Valid builder) (hcfg : builder.backpatch = .ok cfg) :
    ∃ dest, Resolved builder cfg dest := by
  obtain ⟨patch, hpatch, rfl⟩ := backpatch_eq_ok.mp hcfg
  have hdone : Patching builder builder.stubIds patch :=
    (Patching.opening h).patchAll h (fun _ hentry => hentry) hpatch
  obtain ⟨dest, hstays, hends⟩ := hdone.exists_dest
  refine ⟨dest, hdone.resolved h hstays hends fun {id label} hentry => ?_⟩
  obtain ⟨destination, hresolve⟩ := resolve_of_patchAll hpatch _ hentry
  exact h.passes_of_resolve hentry hresolve

section Resolved

variable {next : NodeId}

section

variable (h : Resolved builder cfg dest) (hvalid : Valid builder)
include h hvalid

/-- The way from a place to its destination. -/
theorem Resolved.leads {place : NodeId} (hlive : cfg.contains (dest place)) :
    Leads builder cfg place (dest place) := by
  by_cases hstub : place ∈ builder.stubIds
  · rcases h.ends hstub with hnode | ⟨entry, hcircle, hspin⟩
    · exact .inl (leadsTo_of_resolve hnode)
    · exact .inr ⟨hvalid.not_leadsTo_of_resolve hcircle, _, hspin hlive⟩
  · rw [h.stays hstub]
    exact .inl (.here (hvalid.stubs_eq_none.mpr hstub))

/-- A stub has the destination of its label's place, a node or a stub for itself. -/
theorem Resolved.dest_eq_of_passes (hpass : Passes builder.labels builder.stubs stub next)
    (hnext : next ∉ builder.stubIds ∨ Passes builder.labels builder.stubs next next) :
    dest stub = dest next := by
  have hstub := hvalid.mem_stubIds_of_passes hpass
  rcases hnext with hnode | hround
  · have hresolve := hvalid.resolve_of_passes hpass hnode
    rw [h.stays hnode]
    rcases h.ends hstub with hends | ⟨entry, hcircle, -⟩
    · exact Destination.node.inj (Except.ok.inj (hends.symm.trans hresolve))
    · cases hcircle.symm.trans hresolve
  · exact (h.circles hstub (hvalid.mem_stubIds_of_passes hround)
      (hvalid.resolve_of_circle hpass hround) (hvalid.resolve_of_circle hround hround)).mpr rfl

/-- Stubs for themselves have different spins. -/
theorem Resolved.eq_of_circles {other : NodeId}
    (hround : Passes builder.labels builder.stubs stub stub)
    (hround' : Passes builder.labels builder.stubs other other) (hsame : dest stub = dest other) :
    stub = other :=
  (h.circles (hvalid.mem_stubIds_of_passes hround) (hvalid.mem_stubIds_of_passes hround')
    (hvalid.resolve_of_circle hround hround) (hvalid.resolve_of_circle hround' hround')).mp hsame

end

section

variable (h : Resolved builder cfg dest) (hid : cfg.contains id)
  (hlive : builder.cfg.contains id) {onTrue onFalse : NodeId}
include h hid hlive

/-- A node with one way out keeps one. -/
theorem Resolved.outgoing_one (hout : builder.cfg.outgoing id = [(next, none)]) :
    cfg.outgoing id = [(dest next, none)] := by
  refine h.sound.graph.outgoing_eq_singleton fun ⟨target, label⟩ => ?_
  rw [h.outgoing hid hlive, hout]
  simp [and_comm]

/-- A single successor is resolved. -/
theorem Resolved.successors_one (hout : builder.cfg.outgoing id = [(next, none)]) :
    cfg.successors id = [dest next] := by
  rw [Graph.successors, h.outgoing_one hid hlive hout]
  rfl

variable (hout : builder.cfg.outgoing id = [(onTrue, some true), (onFalse, some false)])
include hout

/-- A node with a true and a false way out keeps both, in this order. -/
theorem Resolved.outgoing_two :
    cfg.outgoing id = [(dest onTrue, some true), (dest onFalse, some false)] := by
  refine h.sound.graph.outgoing_eq_pair fun ⟨target, label⟩ => ?_
  rw [h.outgoing hid hlive, hout]
  simp only [mem_cons, Prod.mk.injEq, not_mem_nil, or_false]
  constructor
  · rintro ⟨place, ⟨rfl, hlabel⟩ | ⟨rfl, hlabel⟩, htarget⟩
    · exact .inl ⟨htarget, hlabel⟩
    · exact .inr ⟨htarget, hlabel⟩
  · rintro (⟨htarget, hlabel⟩ | ⟨htarget, hlabel⟩)
    · exact ⟨onTrue, .inl ⟨rfl, hlabel⟩, htarget⟩
    · exact ⟨onFalse, .inr ⟨rfl, hlabel⟩, htarget⟩

/-- Both branches are resolved. -/
theorem Resolved.successors_two : cfg.successors id = [dest onTrue, dest onFalse] := by
  rw [Graph.successors, h.outgoing_two hid hlive hout]
  rfl

end

/-- Cleaning keeps a graph resolved. -/
theorem Resolved.clean (h : Resolved builder cfg dest) : Resolved builder cfg.clean dest := by
  have hreach : ∀ {id}, cfg.clean.contains id →
      cfg.Reaches cfg.start id ∧ cfg.contains id := fun hid => h.sound.contains_clean.mp hid
  refine ⟨h.sound.clean, h.start, fun hid hlive => ?_, h.stays, fun {stub} hstub => ?_, h.circles,
    fun {id link} hid hlive => ?_, h.labels, fun {id} hid => ?_⟩
  · exact (h.sound.node?_clean (hreach hid).1).trans (h.node (hreach hid).2 hlive)
  · refine (h.ends hstub).imp_right fun ⟨entry, hcircle, hspin⟩ => ⟨entry, hcircle, fun hid => ?_⟩
    rw [h.sound.node?_clean (hreach hid).1]
    exact hspin (hreach hid).2
  · rw [h.sound.outgoing_clean (hreach hid).1]
    exact h.outgoing (hreach hid).2 hlive
  · rw [h.sound.node?_clean (hreach hid).1, h.sound.outgoing_clean (hreach hid).1]
    exact h.live (hreach hid).2

end Resolved

end Builder

end Flowgraph
