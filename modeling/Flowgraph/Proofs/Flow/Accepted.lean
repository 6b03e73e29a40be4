import Flowgraph.Proofs.Flow.Checked

/-!
# The bodies that have a flow graph

A body is canonical if its statements are instructions, its moves go to temporaries or to memory,
and it defines every label to which it goes. Exactly these bodies have a flow graph
(`FlowGraph.ofBody_accepts_canonical`). The builder reads from the end, so the last statement that
it cannot read is the one that it reports; labels are looked up after that.
-/

namespace Flowgraph

open List

variable {body stmt : Stmt} {label : String} {error : FlowError}

/-- Whether an error is about the text of a body, not a flow graph. -/
def FlowError.aboutText : FlowError → Bool
  | .undefinedLabel _ | .nestedSequence | .invalidMoveTarget _ => true
  | .graph _ | .unexpectedNode _ _ | .malformedPhi _ => false

namespace Stmt

/-- Why a statement of a body cannot be read, if it cannot. -/
def refusal? : Stmt → Option FlowError
  | seq _ _ => some .nestedSequence
  | instr (.move (.temp _) _) _ | instr (.move (.mem _) _) _ => none
  | instr (.move target _) _ => some (.invalidMoveTarget target)
  | instr _ _ => none

/-- Readable statements are not refused. -/
theorem isReadable_iff : stmt.isReadable ↔ stmt.refusal? = none := by
  cases stmt with
  | seq => simp [isReadable, refusal?]
  | instr instr span =>
    cases instr with
    | move target source => cases target <;> simp [isReadable, refusal?]
    | call | jump | branch | label | ret => simp [isReadable, refusal?]

/-- A statement of the body goes to a label. -/
def GoesTo (body : Stmt) (label : String) : Prop :=
  ∃ action span, .instr action span ∈ body.topLevel ∧ action.goesTo? = some label

/-- A statement of the body defines a label. -/
def Defines (body : Stmt) (label : String) : Prop :=
  ∃ span, .instr (.label label) span ∈ body.topLevel

/-- Instructions in which every move and jump has somewhere to go. -/
structure Canonical (body : Stmt) : Prop where
  flat : ∀ stmts span, .seq stmts span ∉ body.topLevel
  moves : ∀ target source span, .instr (.move target source) span ∈ body.topLevel →
    (∃ name, target = .temp name) ∨ ∃ address, target = .mem address
  labels : ∀ label, body.GoesTo label → body.Defines label

/-- Canonical bodies, by what is refused. -/
theorem canonical_iff : body.Canonical ↔
    (∀ stmt ∈ body.topLevel, stmt.refusal? = none) ∧ ∀ label, body.GoesTo label →
      body.Defines label := by
  constructor
  · intro h
    refine ⟨fun stmt hstmt => ?_, h.labels⟩
    cases stmt with
    | seq stmts span => exact absurd hstmt (h.flat stmts span)
    | instr action span =>
      cases action with
      | move target source =>
        rcases h.moves target source span hstmt with ⟨_, rfl⟩ | ⟨_, rfl⟩ <;> rfl
      | call | jump | branch | label | ret => rfl
  · rintro ⟨hread, hlabels⟩
    refine ⟨fun stmts span hstmt => ?_, fun target source span hstmt => ?_, hlabels⟩
    · cases hread _ hstmt
    · have hmove := hread _ hstmt
      cases target with
      | temp name => exact .inl ⟨name, rfl⟩
      | mem address => exact .inr ⟨address, rfl⟩
      | const | binary | symbol => cases hmove

/-- The code of a body without sequences in it lists its statements. -/
theorem mem_code_iff {action : Instr} (h : ∀ stmt ∈ body.topLevel, stmt.refusal? = none) :
    action ∈ body.code ↔ ∃ span, .instr action span ∈ body.topLevel := by
  rw [code_eq_codeList]
  generalize body.topLevel = stmts at h
  induction stmts with
  | nil => simp [codeList]
  | cons stmt stmts ih =>
    obtain ⟨hfirst, hrest⟩ := forall_mem_cons.mp h
    rw [codeList, mem_append, ih hrest]
    cases stmt with
    | seq => cases hfirst
    | instr other span => simp [code, exists_or]

end Stmt

namespace Builder

variable {builder : Builder} {successor : NodeId} {stmts : List Stmt} {read : Builder × NodeId}

/-- Refused statements stop the reading. -/
theorem visit_of_refusal (h : stmt.refusal? = some error) :
    builder.visit successor stmt = .error error := by
  cases stmt with
  | seq => exact congrArg _ (Option.some.inj h)
  | instr action span =>
    cases action with
    | move target source =>
      cases target with
      | temp | mem => cases h
      | const | binary | symbol => exact congrArg _ (Option.some.inj h)
    | call | jump | branch | label | ret => cases h

/-- Statements that are read are not refused. -/
theorem refusal?_of_visit (h : builder.visit successor stmt = .ok read) : stmt.refusal? = none := by
  cases hrefusal : stmt.refusal? with
  | none => rfl
  | some error => cases (visit_of_refusal hrefusal).symm.trans h

/-- Statements that were read could be. -/
theorem refusal?_of_visitAll (h : builder.visitAll successor stmts = .ok read) :
    ∀ stmt ∈ stmts, stmt.refusal? = none := by
  induction stmts generalizing read with
  | nil => exact fun _ hstmt => absurd hstmt not_mem_nil
  | cons stmt stmts ih =>
    rw [visitAll] at h
    split at h
    · cases h
    · next hrest => exact forall_mem_cons.mpr ⟨refusal?_of_visit h, ih hrest⟩

/-- The last statement that cannot be read ends the reading. -/
theorem visitAll_of_refusal {before after : List Stmt} (h : stmt.refusal? = some error)
    (hafter : ∀ later ∈ after, later.refusal? = none) :
    builder.visitAll successor (before ++ stmt :: after) = .error error := by
  induction before with
  | nil =>
    obtain ⟨read, hread⟩ := builder.exists_visitAll successor fun later hlater =>
      Stmt.isReadable_iff.mpr (hafter later hlater)
    rw [nil_append, visitAll, hread]
    exact visit_of_refusal h
  | cons first before ih => rw [cons_append, visitAll, ih]

/-- Reading an instruction fails over its text. -/
theorem aboutText_of_visitInstr {span : Span} {instr : Instr}
    (h : builder.visitInstr successor span instr = .error error) : error.aboutText := by
  cases instr with
  | move target source =>
    cases target with
    | temp | mem => cases h
    | _ =>
      cases h
      rfl
  | _ => cases h

/-- Reading fails over the text only. -/
theorem aboutText_of_visitAll (h : builder.visitAll successor stmts = .error error) :
    error.aboutText := by
  induction stmts generalizing error with
  | nil => cases h
  | cons stmt rest ih =>
    rw [visitAll] at h
    split at h
    · next hrest =>
      cases h
      exact ih hrest
    · cases stmt with
      | instr instr span => exact aboutText_of_visitInstr h
      | seq stmts span =>
        cases h
        rfl

/-- Following stubs fails at the label of a stub that has no place. -/
theorem exists_of_follow_error {labels : NameMap NodeId} {stubs : NodeMap String} {rounds : Nat}
    {seen : List NodeId}
    {place : NodeId} (h : follow labels stubs rounds seen place = .error error) :
    ∃ (stub : NodeId) (label : String), error = .undefinedLabel label ∧ stubs[stub]? = some label ∧
      labels[label]? = none := by
  induction rounds generalizing seen place with
  | zero => cases h
  | succ rounds ih =>
    rw [follow] at h
    split at h
    · cases h
    · next label hstub =>
      split at h
      · cases h
      · split at h
        · next hnone => exact ⟨place, label, (Except.error.inj h).symm, hstub, hnone⟩
        · exact ih h

/-- Patching fails at some stub. -/
theorem exists_of_patchAll_error {patch : Patch} {entries : List (NodeId × String)}
    (h : builder.patchAll patch entries = .error error) :
    ∃ stub, builder.resolve stub = .error error := by
  induction entries generalizing patch with
  | nil => cases h
  | cons entry entries ih =>
    rw [patchAll] at h
    split at h
    · next hresolve =>
      cases h
      exact ⟨entry.1, hresolve⟩
    · exact ih h

/-- Stubs cannot be resolved only if the label of one has no place. -/
theorem Valid.exists_of_backpatch_error (hvalid : Valid builder)
    (h : builder.backpatch = .error error) :
    ∃ (stub : NodeId) (label : String), error = .undefinedLabel label ∧
      (stub, label) ∈ builder.pending ∧ builder.labels[label]? = none := by
  rw [backpatch] at h
  split at h
  · next hpatch =>
    cases h
    obtain ⟨first, hresolve⟩ := exists_of_patchAll_error hpatch
    obtain ⟨stub, label, herror, hstub, hnone⟩ := exists_of_follow_error hresolve
    exact ⟨stub, label, herror, hvalid.stubs_eq_some.mp hstub, hnone⟩
  · cases h

variable {rest : List Instr} {places : List NodeId} {place : NodeId} {span : Span} {action : Instr}

/-- Going to a label was read with the place of the label. -/
theorem Read.exists_target (h : Read builder rest place places span action)
    (hgoes : action.goesTo? = some label) :
    ∃ target, Target builder rest places span label target := by
  cases action with
  | jump name =>
    cases hgoes
    exact ⟨place, h⟩
  | branch cond name =>
    cases hgoes
    obtain ⟨-, target, next, -, -, -, htarget⟩ := h
    exact ⟨target, htarget⟩
  | move | call | ret | label => cases hgoes

/-- A body with a graph defines the labels to which it goes. -/
theorem Built.label_mem_code {body : Stmt} {cfg : FlowGraph} {dest : NodeId → NodeId}
    (h : Built builder body places cfg dest) (haction : action ∈ body.code)
    (hgoes : action.goesTo? = some label) :
    .label label ∈ body.code := by
  obtain ⟨k, hk⟩ := getElem?_of_mem haction
  obtain ⟨span, hstmt⟩ := h.exists_stmt hk
  obtain ⟨place, hplace⟩ := h.exists_getElem? hk
  obtain ⟨target, htarget⟩ := (h.read hstmt hplace).exists_target hgoes
  rcases htarget with hdefined | ⟨-, hpending, -⟩
  · obtain ⟨k', -, hlabel, -⟩ := hdefined.of_drop
    exact mem_of_getElem? hlabel
  · obtain ⟨place, hplace⟩ := h.resolved.labels hpending
    obtain ⟨k', hlabel, -⟩ := (h.labelled.mp hplace).position
    exact mem_of_getElem? hlabel

end Builder

namespace FlowGraph

variable {cfg : FlowGraph}

/-- Bodies that are read hold no refusal. -/
theorem refusal?_of_ofBody (h : ofBody body = .ok cfg) : ∀ stmt ∈ body.topLevel,
    stmt.refusal? = none := by
  rw [ofBody] at h
  split at h
  · cases h
  · next hvisit => exact Builder.refusal?_of_visitAll hvisit

/-- Exactly the canonical bodies are read. -/
theorem exists_ofBody_iff : (∃ cfg, ofBody body = .ok cfg) ↔ body.Canonical := by
  rw [Stmt.canonical_iff]
  constructor
  · rintro ⟨cfg, hcfg⟩
    have hread := refusal?_of_ofBody hcfg
    obtain ⟨builder, places, dest, hbuilt⟩ := built_of_ofBody hcfg
    refine ⟨hread, fun label hgoes => ?_⟩
    obtain ⟨action, span, hstmt, hgoes⟩ := hgoes
    exact (Stmt.mem_code_iff hread).mp (hbuilt.label_mem_code
      ((Stmt.mem_code_iff hread).mpr ⟨span, hstmt⟩) hgoes)
  · rintro ⟨hread, hlabels⟩
    refine exists_ofBody (fun stmt hstmt => Stmt.isReadable_iff.mpr (hread stmt hstmt)) ?_
    intro action haction label hgoes
    obtain ⟨span, hstmt⟩ := (Stmt.mem_code_iff hread).mp haction
    exact (Stmt.mem_code_iff hread).mpr (hlabels label ⟨action, span, hstmt, hgoes⟩)

/-- The last refusal is the one reported. -/
theorem ofBody_of_refusal {before after : List Stmt}
    (hbody : body.topLevel = before ++ stmt :: after)
    (h : stmt.refusal? = some error) (hafter : ∀ later ∈ after, later.refusal? = none) :
    ofBody body = .error error := by
  rw [ofBody, hbody, Builder.visitAll_of_refusal h hafter]

/-- A body that can be read is refused for a label that it does not define. -/
theorem undefinedLabel_of_ofBody (hread : ∀ stmt ∈ body.topLevel, stmt.refusal? = none)
    (h : ofBody body = .error error) :
    ∃ label, error = .undefinedLabel label ∧ body.GoesTo label ∧ ¬ body.Defines label := by
  obtain ⟨read, hvisit⟩ := Builder.exists_visitAll
    (Builder.insert { cfg := .ofStart body.span } (.ret body.span)) (ofStart body.span).nextId
    fun stmt hstmt => Stmt.isReadable_iff.mpr (hread stmt hstmt)
  obtain ⟨builder, entry⟩ := read
  obtain ⟨places, hrecorded⟩ := recorded_of_visitAll hvisit
  simp only [ofBody, hvisit] at h
  split at h
  · next hpatch =>
    cases h
    obtain ⟨stub, label, rfl, hpending, hnone⟩ := hrecorded.valid.exists_of_backpatch_error hpatch
    refine ⟨label, rfl, ?_, fun hdefines => ?_⟩
    · obtain ⟨action, haction, hgoes⟩ := hrecorded.named hpending
      obtain ⟨span, hstmt⟩ := (Stmt.mem_code_iff hread).mp haction
      exact ⟨action, span, hstmt, hgoes⟩
    · obtain ⟨place, hplace⟩ := hrecorded.exists_place ((Stmt.mem_code_iff hread).mpr hdefines)
      cases hnone.symm.trans hplace
  · cases h

/-- Construction fails over the text only. -/
theorem aboutText_of_ofBody (h : ofBody body = .error error) : error.aboutText := by
  rw [ofBody] at h
  split at h
  · next hvisit =>
    cases h
    exact Builder.aboutText_of_visitAll hvisit
  next hvisit =>
    obtain ⟨places, hrecorded⟩ := recorded_of_visitAll hvisit
    split at h
    · next hpatch =>
      cases h
      obtain ⟨stub, label, rfl, -⟩ := hrecorded.valid.exists_of_backpatch_error hpatch
      rfl
    · cases h

/-- Exactly the canonical bodies have a flow graph. A body with statements that cannot be read is
refused for the last of them, and any other for a label to which it goes and that it does not
define. No edit of the graph is refused. -/
theorem ofBody_accepts_canonical (body : Stmt) :
    ((∃ cfg, ofBody body = .ok cfg) ↔ body.Canonical) ∧
      (∀ before stmt after error, body.topLevel = before ++ stmt :: after →
        stmt.refusal? = some error → (∀ later ∈ after, later.refusal? = none) →
        ofBody body = .error error) ∧
      (∀ error, (∀ stmt ∈ body.topLevel, stmt.refusal? = none) → ofBody body = .error error →
        ∃ label, error = .undefinedLabel label ∧ body.GoesTo label ∧ ¬ body.Defines label) ∧
      ofBodyChecked body = ofBody body ∧ ∀ error, ofBodyChecked body ≠ .error (.graph error) := by
  refine ⟨exists_ofBody_iff, fun _ _ _ _ hbody h hafter => ofBody_of_refusal hbody h hafter,
    fun _ hread h => undefinedLabel_of_ofBody hread h, ofBodyChecked_eq body, fun error h => ?_⟩
  rw [ofBodyChecked_eq] at h
  cases aboutText_of_ofBody h

/-- A move to a constant, then a sequence, then code that goes to a label that is not there. -/
def garbled : Stmt :=
  .seq [.instr (.move (.const 1) (.const 2)) .dummy, .seq [] .dummy,
    .instr (.move (.temp "x") (.const 1)) .dummy, .instr (.jump "away") .dummy] .dummy

/-- The sequence is the last statement that cannot be read. -/
theorem ofBody_accepts_canonical_garbled : ofBody garbled = .error .nestedSequence ∧
    ofBodyChecked garbled = .error .nestedSequence ∧ ¬ garbled.Canonical := by
  obtain ⟨hiff, hlast, -, hchecked, -⟩ := ofBody_accepts_canonical garbled
  have herror : ofBody garbled = .error .nestedSequence :=
    hlast [.instr (.move (.const 1) (.const 2)) .dummy] (.seq [] .dummy)
      [.instr (.move (.temp "x") (.const 1)) .dummy, .instr (.jump "away") .dummy] .nestedSequence
      rfl rfl (by decide)
  refine ⟨herror, hchecked.trans herror, fun hcanonical => ?_⟩
  obtain ⟨cfg, hcfg⟩ := hiff.mpr hcanonical
  cases herror.symm.trans hcfg

end FlowGraph

end Flowgraph
