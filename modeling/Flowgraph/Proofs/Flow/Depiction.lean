import Flowgraph.Proofs.Flow.Constructed
import Flowgraph.Proofs.Flow.Sites

/-!
# The flow graph of a body depicts it

The flow graph shows the sites of the body that are reached from the start, each once, except that a
circle may have several copies (`FlowGraph.depicts_ofBody`). A place is made at one position, and
from every other position with this place one gets there by labels and jumps
(`Builder.Recorded.exists_creator`). So a stub leads to the site entered from behind it
(`Builder.Built.located_passes`).
-/

namespace Flowgraph

open List

variable {body : Stmt} {cfg : FlowGraph}

open Code
open Relation (ReflTransGen TransGen)

/-- Every member has its partner. -/
theorem exists_mem_of_forall₂ {α β : Type} {R : α → β → Prop} {xs : List α} {ys : List β}
    (h : Forall₂ R xs ys) {x : α} (hx : x ∈ xs) : ∃ y ∈ ys, R x y := by
  induction h with
  | nil => cases hx
  | cons hfirst _ ih =>
    rcases mem_cons.mp hx with rfl | hx
    · exact ⟨_, mem_cons_self, hfirst⟩
    · obtain ⟨y, hy, hr⟩ := ih hx
      exact ⟨y, mem_cons_of_mem _ hy, hr⟩

namespace Builder

variable {builder : Builder} {places : List NodeId} {dest : NodeId → NodeId} {k e : Nat}
  {place next : NodeId} {k' : Nat} {label : String}

/-! ### Where places are made -/

/-- A place is made at a position if no later position has it. -/
def Creates (places : List NodeId) (k : Nat) (place : NodeId) : Prop :=
  places[k]? = some place ∧ place ∉ places.drop (k + 1)

/-- Later places stand behind. -/
theorem mem_drop_of_getElem? (hlt : k < k') (h : places[k']? = some place) :
    place ∈ places.drop (k + 1) := by
  refine mem_of_getElem? (i := k' - (k + 1)) ?_
  rw [getElem?_drop, Nat.add_sub_cancel' hlt]
  exact h

/-- Places are created once. -/
theorem Creates.unique (h : Creates places k place) (h' : Creates places k' place) : k = k' := by
  rcases Nat.lt_trichotomy k k' with hlt | heq | hlt
  · exact absurd (mem_drop_of_getElem? hlt h'.1) h.2
  · exact heq
  · exact absurd (mem_drop_of_getElem? hlt h.1) h'.2

/-- A label that is defined behind a position. -/
theorem Defined.pos {instrs : List Instr}
    (h : Defined (instrs.drop (k + 1)) (places.drop (k + 1)) label place) :
    ∃ k', pos? instrs k label = some k' ∧ k < k' ∧ places[k']? = some place := by
  obtain ⟨j, hfirst, hplace⟩ := h
  refine ⟨k + 1 + j, ?_, by omega, ?_⟩
  · rw [pos?, hfirst, Option.map_some, Option.some_or]
  · rwa [getElem?_drop] at hplace

section

variable (h : Recorded builder body places)
  (hnone : ∀ other, ¬ Defined (body.code.drop (k + 1)) (places.drop (k + 1)) label other)
include h hnone

/-- A label that is not defined behind a position. -/
theorem Recorded.firstLabel_eq_none : firstLabel label (body.code.drop (k + 1)) = none := by
  by_contra hsome
  obtain ⟨i, hi⟩ := Option.ne_none_iff_exists'.mp hsome
  have hlt : i < (body.code.drop (k + 1)).length :=
    (List.getElem?_eq_some_iff.mp (getElem?_of_firstLabel hi)).1
  have hbound : i < (places.drop (k + 1)).length := by
    rw [length_drop] at hlt ⊢
    rw [h.length_eq]
    omega
  exact hnone _ ⟨i, hi, getElem?_eq_getElem hbound⟩

/-- Labels lead to their place. -/
theorem Recorded.pos (hlabel : builder.labels[label]? = some place) :
    ∃ k', pos? body.code k label = some k' ∧ places[k']? = some place := by
  obtain ⟨j, hfirst, hplace⟩ := h.labelled.mp hlabel
  refine ⟨j, ?_, hplace⟩
  rw [pos?, h.firstLabel_eq_none hnone, Option.map_none, Option.none_or, hfirst]

end

/-- Labels and jumps lead from a position to where its place is made. -/
theorem Recorded.exists_creator (h : Recorded builder body places)
    (hplace : places[k]? = some place) :
    ∃ e, ReflTransGen (Skips body.code) k e ∧ Creates places e place := by
  -- A position that shares its place with a later one has a label or a jump to a label behind it.
  induction hsize : places.length - k using Nat.strongRecOn generalizing k with
  | ind size ih =>
    by_cases hlater : place ∈ places.drop (k + 1)
    · have hbound : k < places.length := (List.getElem?_eq_some_iff.mp hplace).1
      have hgo : ∀ {k'}, k < k' → Skips body.code k k' → places[k']? = some place →
          ∃ e, ReflTransGen (Skips body.code) k e ∧ Creates places e place := by
        intro k' hlt hskip hplace'
        obtain ⟨e, hskips, hcreates⟩ := ih _ (by omega) hplace' rfl
        exact ⟨e, .head hskip hskips, hcreates⟩
      cases hinstr : body.code[k]? with
      | none =>
        have hle : body.code.length ≤ k := by simpa using hinstr
        rw [drop_eq_nil_of_le (by rw [h.length_eq]; omega)] at hlater
        cases hlater
      | some instr =>
        obtain ⟨span, hstmt⟩ := h.exists_stmt hinstr
        have hread := h.read hstmt hplace
        cases instr with
        | label name =>
          have hnext : places[k + 1]? = some place := by
            rw [← head?_drop]
            exact hread
          exact hgo (Nat.lt_succ_self k) (.label hinstr) hnext
        | jump label =>
          rcases hread with hdefined | ⟨hfresh, -⟩
          · obtain ⟨k', hpos, hlt, hplace'⟩ := hdefined.pos
            exact hgo hlt (.jump hinstr hpos) hplace'
          · exact absurd hlater hfresh
        | move | call | branch | ret => exact absurd hlater hread.1
    · exact ⟨k, .refl, hplace, hlater⟩

/-- What a builder makes at a position together with its place. -/
inductive Made (builder : Builder) (body : Stmt) (places : List NodeId) (e : Nat) (place : NodeId) :
    Prop where
  | stop : e = body.code.length → builder.cfg.node? place = some (.ret body.span) →
      Made builder body places e place
  | ret {span : Span} : body.code[e]? = some .ret → body.topLevel[e]? = some (.instr .ret span) →
      builder.cfg.node? place = some (.ret span) → Made builder body places e place
  | act {instr : Instr} {span : Span} {node : Node} {next : NodeId} : body.code[e]? = some instr →
      body.topLevel[e]? = some (.instr instr span) → instr.actor? span = some node →
      builder.cfg.node? place = some node → builder.cfg.outgoing place = [(next, none)] →
      places[e + 1]? = some next → Made builder body places e place
  | branch {cond : Expr} {label : String} {span : Span} {target next : NodeId} :
      body.code[e]? = some (.branch cond label) →
      body.topLevel[e]? = some (.instr (.branch cond label) span) →
      builder.cfg.node? place = some (.branch cond span) →
      builder.cfg.outgoing place = [(target, some true), (next, some false)] →
      Target builder (body.code.drop (e + 1)) (places.drop (e + 1)) span label target →
      places[e + 1]? = some next → Made builder body places e place
  | stub {label : String} {span : Span} : body.code[e]? = some (.jump label) →
      body.topLevel[e]? = some (.instr (.jump label) span) →
      (place, label) ∈ builder.pending → builder.cfg.node? place = some (.stub span) →
      (∀ other, ¬ Defined (body.code.drop (e + 1)) (places.drop (e + 1)) label other) →
      Made builder body places e place

/-- Every place created was made. -/
theorem Recorded.made (h : Recorded builder body places) (hcreates : Creates places e place) :
    Made builder body places e place := by
  cases hinstr : body.code[e]? with
  | none =>
    have hle : body.code.length ≤ e := by simpa using hinstr
    have hlt : e < places.length := (List.getElem?_eq_some_iff.mp hcreates.1).1
    obtain rfl : e = body.code.length := by
      rw [h.length_eq] at hlt
      omega
    exact .stop rfl (h.last hcreates.1)
  | some instr =>
    obtain ⟨span, hstmt⟩ := h.exists_stmt hinstr
    have hread := h.read hstmt hcreates.1
    have hhead : ∀ {next}, (places.drop (e + 1)).head? = some next → places[e + 1]? = some next :=
      fun hnext => by rwa [head?_drop] at hnext
    cases instr with
    | label name => exact absurd (mem_of_head? hread) hcreates.2
    | jump label =>
      rcases hread with hdefined | ⟨-, hentry, hnode, hnone⟩
      · obtain ⟨k', -, hlt, hplace⟩ := hdefined.pos
        exact absurd (mem_drop_of_getElem? hlt hplace) hcreates.2
      · exact .stub hinstr hstmt hentry hnode hnone
    | branch cond label =>
      obtain ⟨-, target, next, hnode, hnext, hout, htarget⟩ := hread
      exact .branch hinstr hstmt hnode hout htarget (hhead hnext)
    | ret => exact .ret hinstr hstmt hread.2
    | move | call =>
      obtain ⟨-, node, next, hactor, hnode, hnext, hout⟩ := hread
      exact .act hinstr hstmt hactor hnode hout (hhead hnext)

/-- Stubs were made by jumps. -/
theorem Made.mem_stubIds (h : Made builder body places e place) (hvalid : Valid builder)
    (hstub : place ∈ builder.stubIds) :
    ∃ label span, body.code[e]? = some (.jump label) ∧
      body.topLevel[e]? = some (.instr (.jump label) span) ∧ (place, label) ∈ builder.pending ∧
      builder.cfg.node? place = some (.stub span) ∧
      ∀ other, ¬ Defined (body.code.drop (e + 1)) (places.drop (e + 1)) label other := by
  have hno : ∀ {node}, builder.cfg.node? place = some node → (∀ span, node ≠ .stub span) → False :=
    fun hnode hne => hvalid.not_mem_stubIds hnode hne hstub
  cases h with
  | stop _ hnode => exact (hno hnode (by simp)).elim
  | ret _ _ hnode => exact (hno hnode (by simp)).elim
  | branch _ _ hnode => exact (hno hnode (by simp)).elim
  | act _ _ hactor hnode =>
    refine (hno hnode fun span heq => ?_).elim
    have hkind := (Instr.actor?_cases hactor).2
    simp [heq, Node.kind] at hkind
  | stub hinstr hstmt hentry hnode hnone => exact ⟨_, _, hinstr, hstmt, hentry, hnode, hnone⟩

/-- A place that is no stub is made at another statement. -/
theorem Made.skip?_eq_none (h : Made builder body places e place) (hnot : place ∉ builder.stubIds) :
    skip? body.code e = none := by
  cases h with
  | stop heq => simp [skip?, heq]
  | ret hinstr => simp [skip?, hinstr]
  | branch hinstr => simp [skip?, hinstr]
  | @act instr _ _ _ hinstr _ hactor =>
    cases instr with
    | move | call => simp [skip?, hinstr]
    | jump | branch | label | ret => cases hactor
  | stub _ _ hentry => exact absurd (mem_map.mpr ⟨_, hentry, rfl⟩) hnot

/-! ### Stubs and positions -/

section

variable (h : Recorded builder body places) (hcreates : Creates places e place)
include h hcreates

/-- A stub passed from where it is made is a jump. -/
theorem Recorded.skips_of_passes (hpass : Passes builder.labels builder.stubs place next) :
    ∃ e', TransGen (Skips body.code) e e' ∧ Creates places e' next := by
  obtain ⟨label, -, hinstr, -, hentry, -, hnone⟩ :=
    (h.made hcreates).mem_stubIds h.valid (h.valid.mem_stubIds_of_passes hpass)
  obtain ⟨label', hstub, hlabel⟩ := hpass
  obtain rfl : label = label' := by
    rw [h.valid.stubs_eq_some.mpr hentry] at hstub
    exact Option.some.inj hstub
  obtain ⟨k', hpos, hplace⟩ := h.pos hnone hlabel
  obtain ⟨e', hskips, hcreates'⟩ := h.exists_creator hplace
  exact ⟨e', .head' (.jump hinstr hpos) hskips, hcreates'⟩

/-- Passing places skips instructions. -/
theorem Recorded.skips_of_reaches
    (hpasses : ReflTransGen (Passes builder.labels builder.stubs) place next) :
    ∃ e', ReflTransGen (Skips body.code) e e' ∧ Creates places e' next := by
  induction hpasses with
  | refl => exact ⟨e, .refl, hcreates⟩
  | tail _ hpass ih =>
    obtain ⟨e', hskips, hcreates'⟩ := ih
    obtain ⟨e'', hskips', hcreates''⟩ := h.skips_of_passes hcreates' hpass
    exact ⟨e'', hskips.trans hskips'.to_reflTransGen, hcreates''⟩

/-- A circle of stubs is a circle of labels and jumps. -/
theorem Recorded.round_of_passes
    (hround : TransGen (Passes builder.labels builder.stubs) place place) :
    TransGen (Skips body.code) e e := by
  obtain ⟨next, hpass, hrest⟩ := TransGen.head'_iff.mp hround
  obtain ⟨e', hskips, hcreates'⟩ := h.skips_of_passes hcreates hpass
  obtain ⟨e'', hskips', hcreates''⟩ := h.skips_of_reaches hcreates' hrest
  obtain rfl := hcreates.unique hcreates''
  exact TransGen.trans_left hskips hskips'

end

/-- Resolving passes places. -/
theorem Resolves.passes {labels : NameMap NodeId} {stubs : NodeMap String} {last : NodeId}
    (h : Resolves labels stubs place last) : ReflTransGen (Passes labels stubs) place last := by
  induction h with
  | here => exact .refl
  | pass hpass _ ih => exact .head hpass ih

/-! ### The sites of nodes -/

/-- The site of a node of the graph. -/
inductive Located (builder : Builder) (body : Stmt) (places : List NodeId) (cfg : FlowGraph)
    (dest : NodeId → NodeId) (id : NodeId) : Site → Prop where
  | start : id = cfg.start → Located builder body places cfg dest id .start
  | stmt {e : Nat} : Creates places e id → id ∉ builder.stubIds →
      Located builder body places cfg dest id (.stmt e)
  | spin {stub entry : NodeId} {e first : Nat} : stub ∈ builder.stubIds → dest stub = id →
      builder.resolve stub = .ok (.circle entry) → Creates places e entry →
      Circles body.code e first → Located builder body places cfg dest id (.spin first)

section

variable (h : Built builder body places cfg dest) {stub : NodeId}
include h

/-- A stub leads to the site entered from where it is passed to. -/
theorem Built.located_passes (hpass : Passes builder.labels builder.stubs stub place)
    (hplace : places[k]? = some place) :
    ∃ site, Located builder body places cfg dest (dest stub) site ∧ Enters body.code k site := by
  have hstub := h.valid.mem_stubIds_of_passes hpass
  obtain ⟨e, hskips, hcreates⟩ := h.exists_creator hplace
  rcases h.resolved.ends hstub with hnode | ⟨entry, hcircle, -⟩
  · -- The stubs end at a node, and so the labels and jumps end where this node was made.
    have hleads := leadsTo_of_resolve hnode
    obtain ⟨e', hskips', hcreates'⟩ := h.skips_of_reaches hcreates (hleads.next hpass).passes
    have hnot := h.valid.stubs_eq_none.mp hleads.not_stub
    exact ⟨_, .stmt hcreates' hnot,
      .of_skips (hskips.trans hskips') (.stop ((h.made hcreates').skip?_eq_none hnot))⟩
  · -- The stub itself may stand at a branch and have no position, but what it passes to has one.
    obtain ⟨hreach, hround⟩ := h.valid.circle_of_resolve hcircle
    have hunique : Relator.RightUnique (Passes builder.labels builder.stubs) :=
      fun _ _ _ => Passes.unique
    obtain ⟨e', hskips', hcreates'⟩ :=
      h.skips_of_reaches hcreates (reaches_circle_of_step hunique hpass hreach hround)
    obtain ⟨first, hfirst⟩ := exists_circles (h.round_of_passes hcreates' hround)
    exact ⟨_, .spin hstub rfl hcircle hcreates' hfirst,
      .of_skips (hskips.trans hskips') (.round hfirst)⟩

/-- A stub leads to the site entered from its label. -/
theorem Built.located_stub (hentry : (stub, label) ∈ builder.pending)
    (hnone : ∀ other, ¬ Defined (body.code.drop (k + 1)) (places.drop (k + 1)) label other) :
    ∃ k' site, pos? body.code k label = some k' ∧
      Located builder body places cfg dest (dest stub) site ∧ Enters body.code k' site := by
  obtain ⟨next, hlabel⟩ := h.resolved.labels hentry
  obtain ⟨k', hpos, hnext⟩ := h.pos hnone hlabel
  obtain ⟨site, hlocated, henters⟩ :=
    h.located_passes ⟨label, h.valid.stubs_eq_some.mpr hentry, hlabel⟩ hnext
  exact ⟨k', site, hpos, hlocated, henters⟩

/-- A place leads to the site that is entered from its position. -/
theorem Built.located_place (hplace : places[k]? = some place) :
    ∃ site, Located builder body places cfg dest (dest place) site ∧ Enters body.code k site := by
  obtain ⟨e, hskips, hcreates⟩ := h.exists_creator hplace
  by_cases hstub : place ∈ builder.stubIds
  · obtain ⟨label, -, hinstr, -, hentry, -, hnone⟩ := (h.made hcreates).mem_stubIds h.valid hstub
    obtain ⟨k', site, hpos, hlocated, henters⟩ := h.located_stub hentry hnone
    exact ⟨site, hlocated, .of_skips hskips (.skip (.jump hinstr hpos) henters)⟩
  · rw [h.resolved.stays hstub]
    exact ⟨_, .stmt hcreates hstub, .of_skips hskips
      (.stop ((h.made hcreates).skip?_eq_none hstub))⟩

/-- The target of a branch leads to the site entered from its label. -/
theorem Built.located_target {span : Span} {target : NodeId}
    (htarget : Target builder (body.code.drop (k + 1)) (places.drop (k + 1)) span label target) :
    ∃ k' site, pos? body.code k label = some k' ∧
      Located builder body places cfg dest (dest target) site ∧ Enters body.code k' site := by
  rcases htarget with hdefined | ⟨-, hentry, -, hnone⟩
  · obtain ⟨k', hpos, -, hplace⟩ := hdefined.pos
    obtain ⟨site, hlocated, henters⟩ := h.located_place hplace
    exact ⟨k', site, hpos, hlocated, henters⟩
  · exact h.located_stub hentry hnone

/-- The node at a circle of the code. -/
theorem Built.node?_spin {entry : NodeId} (hstub : stub ∈ builder.stubIds)
    (hcircle : builder.resolve stub = .ok (.circle entry)) (hcreates : Creates places e entry)
    (hid : cfg.contains (dest stub)) :
    ∃ label span, body.topLevel[e]? = some (.instr (.jump label) span) ∧
      cfg.node? (dest stub) = some (.spin span) := by
  obtain ⟨_, hpass, -⟩ := TransGen.head'_iff.mp (h.valid.circle_of_resolve hcircle).2
  obtain ⟨label, span, -, hstmt, -, hnode, -⟩ :=
    (h.made hcreates).mem_stubIds h.valid (h.valid.mem_stubIds_of_passes hpass)
  refine ⟨label, span, hstmt, ?_⟩
  rcases h.resolved.ends hstub with hnone | ⟨entry', hcircle', hspin⟩
  · cases hcircle.symm.trans hnone
  · obtain rfl : entry = entry' := Destination.circle.inj
      (Except.ok.inj (hcircle.symm.trans hcircle'))
    rw [hspin hid, FlowGraph.spanOf, hnode]
    rfl

end

section Located

variable {id : NodeId} {site : Site}

section

variable (h : Built builder body places cfg dest)
include h

section

variable (hlocated : Located builder body places cfg dest id site)
include hlocated

/-- A node shows its site. -/
theorem Built.shows (hid : cfg.contains id) :
    ∃ node, cfg.node? id = some node ∧ Shows body site node := by
  cases hlocated with
  | start heq => exact ⟨_, heq ▸ h.node?_start, .start⟩
  | spin hstub hdest hcircle hcreates hfirst =>
    subst hdest
    obtain ⟨label, span, hstmt, hnode⟩ := h.node?_spin hstub hcircle hcreates hid
    exact ⟨_, hnode, .spin (back_of_round hfirst.round hfirst.leads) hstmt⟩
  | stmt hcreates hnot =>
    cases h.made hcreates with
    | stop heq hnode => exact ⟨_, h.node_eq hid hnode, heq ▸ .stop⟩
    | ret _ hstmt hnode => exact ⟨_, h.node_eq hid hnode, .ret hstmt⟩
    | act _ hstmt hactor hnode => exact ⟨_, h.node_eq hid hnode, .act hstmt hactor⟩
    | branch _ hstmt hnode => exact ⟨_, h.node_eq hid hnode, .branch hstmt⟩
    | stub _ _ hentry => exact absurd (mem_map.mpr ⟨_, hentry, rfl⟩) hnot

/-- A node has one site. -/
theorem Built.located_unique {other : Site} (hother : Located builder body places cfg dest id other)
    (hid : cfg.contains id) : site = other := by
  obtain ⟨node, hnode, hshows⟩ := h.shows hlocated hid
  obtain ⟨node', hnode', hshows'⟩ := h.shows hother hid
  obtain rfl : node = node' := Option.some.inj (hnode.symm.trans hnode')
  -- Sites of different kinds are shown by nodes of different kinds.
  have hkind := hshows.kind
  have hkind' := hshows'.kind
  cases hlocated with
  | start =>
    cases hother with
    | start => rfl
    | stmt => exact absurd hkind hkind'.1
    | spin => cases hkind.symm.trans hkind'
  | stmt hcreates _ =>
    cases hother with
    | start => exact absurd hkind' hkind.1
    | stmt hcreates' _ => rw [hcreates.unique hcreates']
    | spin => exact absurd hkind' hkind.2
  | spin hstub hdest hcircle hcreates hfirst =>
    cases hother with
    | start => cases hkind.symm.trans hkind'
    | stmt => exact absurd hkind hkind'.2
    | spin hstub' hdest' hcircle' hcreates' hfirst' =>
      -- Two stubs share their spin only if they enter the circle at the same stub.
      obtain rfl := (h.resolved.circles hstub hstub' hcircle hcircle').mp (hdest.trans hdest'.symm)
      obtain rfl := hcreates.unique hcreates'
      rw [hfirst.unique hfirst']

end

/-- A circle leads to itself. -/
theorem Built.outgoing_spin {first : Nat}
    (hlocated : Located builder body places cfg dest id (.spin first))
    (hid : cfg.contains id) : cfg.outgoing id = [(id, none)] := by
  obtain ⟨node, hnode, hshows⟩ := h.shows hlocated hid
  have hkind : cfg.kind? id = some .spin := by
    rw [FlowGraph.kind?, hnode, Option.map_some, hshows.kind]
  rcases h.node_cases hid with ⟨-, -, hsame⟩ | ⟨-, hself⟩
  · have hfits : builder.Fits id .spin := h.regular.fits (hsame ▸ hkind)
    exact hfits.elim
  · exact hself

/-- Returns lead nowhere. -/
theorem Built.outgoing_ret {span : Span} (hnode : builder.cfg.node? id = some (.ret span))
    (hid : cfg.contains id) : cfg.outgoing id = [] := by
  have hkind : builder.cfg.kind? id = some .ret := by
    rw [FlowGraph.kind?, hnode]
    rfl
  exact h.outgoingFits hid (Graph.contains_of_payload? hnode)
    (h.valid.not_mem_stubIds hnode (by simp)) hkind

end

/-- An edge leads where a way does. -/
def Follows (builder : Builder) (body : Stmt) (places : List NodeId) (cfg : FlowGraph)
    (dest : NodeId → NodeId) (link : NodeId × Label) (way : Nat × Label) : Prop :=
  link.2 = way.2 ∧ ∃ next, Located builder body places cfg dest link.1 next ∧
    Enters body.code way.1 next

section

variable (h : Built builder body places cfg dest)
include h

/-- The edges of a statement. -/
theorem Built.outgoing_stmt (hmade : Made builder body places e id) (hnot : id ∉ builder.stubIds)
    (hid : cfg.contains id) :
    Forall₂ (Follows builder body places cfg dest) (cfg.outgoing id)
      (Site.ways body.code (.stmt e)) := by
  cases hmade with
  | stop heq hnode =>
    rw [h.outgoing_ret hnode hid, heq]
    simp [Site.ways]
  | ret hinstr _ hnode =>
    rw [h.outgoing_ret hnode hid]
    simp [Site.ways, hinstr]
  | @act instr _ _ _ hinstr _ hactor hnode hout hnext =>
    have hways : Site.ways body.code (.stmt e) = [(e + 1, none)] := by
      cases instr with
      | move | call => simp [Site.ways, hinstr]
      | jump | branch | label | ret => cases hactor
    rw [h.resolved.outgoing_one hid (Graph.contains_of_payload? hnode) hout, hways]
    exact .cons ⟨rfl, h.located_place hnext⟩ .nil
  | branch hinstr _ hnode hout htarget hnext =>
    obtain ⟨k', next, hpos, hlocated, henters⟩ := h.located_target htarget
    rw [h.resolved.outgoing_two hid (Graph.contains_of_payload? hnode) hout]
    simp only [Site.ways, hinstr, hpos]
    exact .cons ⟨rfl, next, hlocated, henters⟩ (.cons ⟨rfl, h.located_place hnext⟩ .nil)
  | stub _ _ hentry => exact absurd (mem_map.mpr ⟨_, hentry, rfl⟩) hnot

/-- The edges of a node are the ways of its site. -/
theorem Built.outgoing_ways (hlocated : Located builder body places cfg dest id site)
    (hid : cfg.contains id) :
    Forall₂ (Follows builder body places cfg dest) (cfg.outgoing id)
      (site.ways body.code) := by
  cases site with
  | start =>
    cases hlocated with
    | start heq =>
    obtain ⟨place, hplace, hout⟩ := h.entry
    rw [heq, hout]
    exact .cons ⟨rfl, h.located_place hplace⟩ .nil
  | stmt e =>
    cases hlocated with
    | stmt hcreates hnot => exact h.outgoing_stmt (h.made hcreates) hnot hid
  | spin first =>
    rw [h.outgoing_spin hlocated hid]
    cases hlocated with
    | spin hstub hdest hcircle hcreates hfirst =>
    exact .cons ⟨rfl, _, .spin hstub hdest hcircle hcreates hfirst,
      .round (hfirst.along hfirst.leads)⟩ .nil

/-- Every node stands at a site that is reached from the start. -/
theorem Built.exists_located (hid : cfg.contains id) :
    ∃ site, Located builder body places cfg dest id site ∧ Reached body.code site := by
  have hreach := h.reached hid
  induction hreach with
  | refl => exact ⟨_, .start rfl, .start⟩
  | @tail source target _ hstep ih =>
    obtain ⟨label, hlink⟩ := Graph.mem_successors.mp hstep
    have hsource : cfg.contains source := Graph.contains_of_mem_outgoing hlink
    obtain ⟨site, hlocated, hreached⟩ := ih hsource
    obtain ⟨way, hway, -, next, hnext, henters⟩ :=
      exists_mem_of_forall₂ (h.outgoing_ways hlocated hsource) hlink
    exact ⟨next, hnext, .way hreached hway henters⟩

/-- Every site that is reached from the start has a node. -/
theorem Built.exists_of_reached (hreached : Reached body.code site) :
    ∃ id, cfg.contains id ∧ Located builder body places cfg dest id site := by
  induction hreached with
  | start => exact ⟨cfg.start, h.resolved.sound.start, .start rfl⟩
  | way _ hway henters ih =>
    obtain ⟨id, hid, hlocated⟩ := ih
    obtain ⟨link, hlink, -, next, hnext, henters'⟩ :=
      exists_mem_of_forall₂ (h.outgoing_ways hlocated hid).flip hway
    obtain rfl := henters.unique henters'
    exact ⟨link.1, h.resolved.sound.graph.contains_successor
      (Graph.mem_successors.mpr ⟨link.2, hlink⟩), hnext⟩

end

/-- Only circles have several nodes. -/
theorem Located.eq {other : NodeId} (h : Located builder body places cfg dest id site)
    (hother : Located builder body places cfg dest other site)
    (hspin : ∀ first, site ≠ .spin first) :
    id = other := by
  cases h with
  | start heq =>
    cases hother with
    | start heq' => exact heq.trans heq'.symm
  | stmt hcreates _ =>
    cases hother with
    | stmt hcreates' _ => exact Option.some.inj (hcreates.1.symm.trans hcreates'.1)
  | spin => exact absurd rfl (hspin _)

end Located

/-- The graph of a body depicts it. -/
theorem Built.exists_depicts (h : Built builder body places cfg dest) :
    ∃ site, FlowGraph.Depicts body cfg site ∧ ∀ {id}, cfg.contains id →
      Located builder body places cfg dest id (site id) := by
  have hall : ∀ id, ∃ site, cfg.contains id →
      Located builder body places cfg dest id site ∧ Reached body.code site := by
    intro id
    by_cases hid : cfg.contains id
    · obtain ⟨site, hsite⟩ := h.exists_located hid
      exact ⟨site, fun _ => hsite⟩
    · exact ⟨.start, fun hlive => absurd hlive hid⟩
  choose site hsite using hall
  have hunique : ∀ {id place}, cfg.contains id →
      Located builder body places cfg dest id place → site id = place :=
    fun hid hplace => h.located_unique (hsite _ hid).1 hplace hid
  refine ⟨site, ⟨hunique h.resolved.sound.start (.start rfl), fun {id node} hnode => ?_,
    fun {id} hid => ?_, fun {id first} hid heq => ?_, fun {id other} hid hother heq hspin => ?_,
    fun place => ⟨fun hreached => ?_, fun ⟨id, hid, heq⟩ => ?_⟩⟩, fun {id} hid => (hsite id hid).1⟩
  · have hid : cfg.contains id := Graph.contains_of_payload? hnode
    obtain ⟨node', hnode', hshows⟩ := h.shows (hsite id hid).1 hid
    obtain rfl := Option.some.inj (hnode.symm.trans hnode')
    exact hshows
  · have hlive : ∀ link ∈ cfg.outgoing id, cfg.contains link.1 := fun link hlink =>
      h.resolved.sound.graph.contains_successor (Graph.mem_successors.mpr ⟨link.2, hlink⟩)
    refine ((forall₂_and_left _ _).mpr ⟨hlive, h.outgoing_ways (hsite id hid).1 hid⟩).imp ?_
    rintro link way ⟨hlink, hlabel, next, hnext, henters⟩
    exact ⟨hlabel, hunique hlink hnext ▸ henters⟩
  · exact h.outgoing_spin (heq ▸ (hsite id hid).1) hid
  · exact (hsite id hid).1.eq (heq ▸ (hsite other hother).1) hspin
  · obtain ⟨id, hid, hlocated⟩ := h.exists_of_reached hreached
    exact ⟨id, hid, hunique hid hlocated⟩
  · exact heq ▸ (hsite id hid).2

end Builder

namespace FlowGraph

/-- The flow graph of a body depicts the graph that the body describes: one site is entered from
each position, and the nodes and edges are those of the sites that are reached from the start. -/
theorem depicts_ofBody (h : ofBody body = .ok cfg) :
    (∀ (k : Nat) (instr : Instr), body.code[k]? = some instr ↔
        ∃ span, body.topLevel[k]? = some (.instr instr span)) ∧
      (∀ k ≤ body.code.length, ∃! site, Code.Enters body.code k site) ∧
      ∃ site, Depicts body cfg site := by
  obtain ⟨builder, places, dest, hbuilt⟩ := built_of_ofBody h
  obtain ⟨site, hdepicts, -⟩ := hbuilt.exists_depicts
  refine ⟨fun k instr => ⟨hbuilt.exists_stmt, fun ⟨span, hstmt⟩ => hbuilt.getElem?_code hstmt⟩,
    fun k hk => ?_, site, hdepicts⟩
  have hlt : k < places.length := by
    rw [hbuilt.length_eq]
    omega
  obtain ⟨site, -, henters⟩ := hbuilt.located_place (getElem?_eq_getElem hlt)
  exact ⟨site, henters, fun other hother => hother.unique henters⟩

/-- A label defined twice, gone back to and on to, and a circle of jumps. -/
def knotted : Stmt :=
  .seq [
    .instr (.label "L") .dummy,
    .instr (.branch (.temp "c") "L") .dummy,
    .instr (.branch (.temp "c") "M") .dummy,
    .instr (.label "L") .dummy,
    .instr (.move (.temp "a") (.const 1)) .dummy,
    .instr (.branch (.temp "a") "L") .dummy,
    .instr .ret .dummy,
    .instr (.label "M") .dummy,
    .instr (.jump "N") .dummy,
    .instr (.label "N") .dummy,
    .instr (.jump "M") .dummy] .dummy

/-- A body with one label defined twice. -/
theorem depicts_ofBody_knotted : ∃ cfg, ofBody knotted = .ok cfg ∧
    Code.pos? knotted.code 1 "L" = some 3 ∧ Code.pos? knotted.code 5 "L" = some 0 ∧
    (∃! site, Code.Enters knotted.code 7 site) ∧ ∃ site, Depicts knotted cfg site := by
  have hreadable : ∀ stmt ∈ knotted.topLevel, stmt.isReadable := by decide
  have hlabels : ∀ instr ∈ knotted.code, ∀ label, instr.goesTo? = some label →
      .label label ∈ knotted.code := by
    simp [knotted, Stmt.code, Stmt.codeList, Instr.goesTo?]
  obtain ⟨cfg, hcfg⟩ := exists_ofBody hreadable hlabels
  obtain ⟨-, hsites, hdepicts⟩ := depicts_ofBody hcfg
  exact ⟨cfg, hcfg, by decide, by decide, hsites 7 (by decide), hdepicts⟩

end FlowGraph

end Flowgraph
