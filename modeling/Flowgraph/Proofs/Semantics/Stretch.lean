import Flowgraph.Proofs.Code.Expr
import Flowgraph.Proofs.Semantics.Fuel

/-!
# Stretches of code

`Machine.perform` executes instructions that go on behind themselves one after another. It is what
the machine does wherever they stand in the code of a function (`Machine.resume_perform`). What an
instruction does depends only on the names that it reads (`Machine.alike_performOne`), and it leaves
those alone that it does not write (`Machine.read_perform`).
-/

namespace Flowgraph

open List

variable {code : Code} {pc : Nat} {instr : Instr} {after : Frame}

/-- Instructions stand in code one behind another from a position on. -/
def Code.Holds (code : Code) (pc : Nat) (instrs : List Instr) : Prop :=
  ∀ offset < instrs.length, code.instrs[pc + offset]? = instrs[offset]?

namespace Code

variable {rest : List Instr}

/-- The first instruction of a stretch. -/
theorem Holds.head (h : code.Holds pc (instr :: rest)) : code.instrs[pc]? = some instr :=
  h 0 (Nat.succ_pos _)

/-- The rest of a stretch. -/
theorem Holds.tail (h : code.Holds pc (instr :: rest)) : code.Holds (pc + 1) rest := by
  intro offset hoffset
  rw [Nat.add_right_comm]
  exact h (offset + 1) (Nat.succ_lt_succ hoffset)

/-- Code goes on behind an instruction that acts. -/
theorem next_eq_effect (h : code.instrs[pc]? = some instr) (hacts : instr.acts) (name : String)
    (frame : Frame) (world : World) :
    code.next name pc frame world = (instr.effect name frame world).action (pc + 1) := by
  rw [next, h]
  cases instr with
  | move | call => rfl
  | jump | branch | label | ret => cases hacts

end Code

/-- The outcome of instructions: a frame or an error, and the machine after them. -/
abbrev Performed := Except EvalError Frame × Machine

/-- Go on after instructions that have not failed. -/
def Performed.andThen : Performed → (Frame → Machine → Performed) → Performed
  | (.error error, machine), _ => (.error error, machine)
  | (.ok frame, machine), next => next frame machine

variable {names : String → Prop} {first second : Performed} {frame : Frame}

namespace Machine

/-- Execute an instruction of a function that acts. -/
def performOne (function : String) (instr : Instr) (frame : Frame) (machine : Machine) :
    Performed :=
  match machine.fuel with
  | 0 => (.error .outOfFuel, machine)
  | fuel + 1 =>
    match instr.effect function frame machine.world with
    | .proceed after world => (.ok after, { machine with world, fuel })
    | .fail error => (.error error, { machine with fuel })
    | .call callee args collectors =>
      match { machine with fuel }.call callee args with
      | (.error error, after) => (.error error, after)
      | (.ok results, after) => (frame.collect callee 0 collectors results, after)

/-- Execute instructions of a function that act, one after another. -/
def perform (function : String) : List Instr → Frame → Machine → Performed
  | [], frame, machine => (.ok frame, machine)
  | instr :: rest, frame, machine =>
    (performOne function instr frame machine).andThen (perform function rest)

/-- One instruction is performed. -/
theorem perform_singleton (function : String) (instr : Instr) (frame : Frame) (machine : Machine) :
    perform function [instr] frame machine = performOne function instr frame machine := by
  rw [perform]
  rcases performOne function instr frame machine with ⟨_ | _, _⟩ <;> rfl

/-- Stretches are performed in turn. -/
theorem perform_append (function : String) (first second : List Instr) (frame : Frame)
    (machine : Machine) : perform function (first ++ second) frame machine =
      (perform function first frame machine).andThen (perform function second) := by
  induction first generalizing frame machine with
  | nil => rfl
  | cons instr rest ih =>
    rw [cons_append, perform, perform]
    rcases performOne function instr frame machine with ⟨error | received, after⟩
    · rfl
    · exact ih received after

/-- Instructions that succeed in turn pass through a frame between them. -/
theorem exists_between {function : String} {first second : List Instr} {after : Frame}
    {machine : Machine} (h : (perform function (first ++ second) frame machine).1 = .ok after) :
    ∃ middle between, perform function first frame machine = (.ok middle, between) ∧
      (perform function second middle between).1 = .ok after := by
  rw [perform_append] at h
  rcases hfirst : perform function first frame machine with ⟨error | middle, between⟩
  · rw [hfirst] at h
    cases h
  · rw [hfirst] at h
    exact ⟨middle, between, rfl, h⟩

/-! ### Where the instructions stand -/

/-- Go on with a function after some of its instructions. -/
def carryOn (function : String) (code : Code) (pc : Nat) (callers : List Caller) :
    Performed → Result × World × Nat
  | (.error error, machine) => (.error error, machine.world, machine.fuel)
  | (.ok frame, machine) =>
    resume machine.table machine.fuel (proceed ⟨function, code, pc, frame⟩ callers machine.world)

/-- The machine executes an instruction where it stands. -/
theorem resume_performOne (hinstr : code.instrs[pc]? = some instr) (hacts : instr.acts)
    (function : String) (callers : List Caller) (frame : Frame) (machine : Machine) :
    resume machine.table machine.fuel (proceed ⟨function, code, pc, frame⟩ callers machine.world) =
      carryOn function code (pc + 1) callers (performOne function instr frame machine) := by
  obtain ⟨table, world, fuel⟩ := machine
  cases fuel with
  | zero => exact resume_proceed_zero hinstr
  | succ fuel =>
    rw [resume_proceed_succ hinstr, Code.next_eq_effect hinstr hacts, performOne]
    cases instr.effect function frame world with
    | proceed after world' => rfl
    | fail error => rfl
    | call callee args collectors =>
      show resume table fuel (enter table callee args _ world) = _
      dsimp only
      rw [resume_enter, call_eq_resume]
      rcases resume table fuel (enter table callee args [] world) with
        ⟨error | results, final, rest⟩
      · rfl
      · show resume table rest (deliver callee results final _) = _
        rw [deliver_cons]
        show _ = carryOn function code (pc + 1) callers
          (frame.collect callee 0 collectors results, ⟨table, final, rest⟩)
        cases frame.collect callee 0 collectors results <;> rfl

/-- The machine executes instructions where they stand, and goes on. -/
theorem resume_perform {instrs : List Instr} (hholds : code.Holds pc instrs)
    (hacts : ∀ instr ∈ instrs, instr.acts) (function : String) (callers : List Caller)
    (frame : Frame) (machine : Machine) :
    resume machine.table machine.fuel (proceed ⟨function, code, pc, frame⟩ callers machine.world) =
      carryOn function code (pc + instrs.length) callers
        (perform function instrs frame machine) := by
  induction instrs generalizing pc frame machine with
  | nil => rfl
  | cons instr rest ih =>
    obtain ⟨hfirst, hrest⟩ := forall_mem_cons.mp hacts
    rw [resume_performOne hholds.head hfirst, perform, length_cons, Nat.add_comm rest.length,
      ← Nat.add_assoc]
    rcases performOne function instr frame machine with ⟨error | received, after⟩
    · rfl
    · exact ih hholds.tail hrest received after

end Machine

/-! ### What instructions read and write -/

/-- The names that an instruction reads. -/
def Instr.reads : Instr → NameSet
  | .move (.mem address) source => address.freeVars ∪ source.freeVars
  | .move _ source => source.freeVars
  | .call _ _ args => NameSet.unions (args.map Expr.freeVars)
  | .branch cond _ => cond.freeVars
  | .jump _ | .label _ | .ret => ∅

/-- The names that an instruction writes. -/
def Instr.writes : Instr → NameSet
  | .move (.temp name) _ => {name}
  | .call collectors _ _ => .ofList collectors
  | _ => ∅

namespace Frame

/-- Two frames read alike at some names. -/
def AgreeOn (names : String → Prop) (frame frame' : Frame) : Prop :=
  ∀ name, names name → frame.read name = frame'.read name

variable {frame' : Frame}

/-- Agreement on fewer names. -/
theorem AgreeOn.mono {fewer : String → Prop} (h : AgreeOn names frame frame')
    (hfewer : ∀ name, fewer name → names name) : AgreeOn fewer frame frame' :=
  fun name hname => h name (hfewer name hname)

/-- Frames agree on a name as well when it is written in both. -/
theorem AgreeOn.write (h : AgreeOn names frame frame') (target : String) (value : Word) :
    AgreeOn (fun name => names name ∨ name = target) (frame.write target value)
      (frame'.write target value) := by
  intro name hname
  rw [read_write, read_write]
  split
  · rfl
  · next hne => exact h name (hname.resolve_right fun heq => hne heq.symm)

/-- Collecting the same results makes frames agree on the collectors. -/
theorem AgreeOn.collect (h : AgreeOn names frame frame') (callee : String) (index : Nat)
    (collectors : List String) (results : List Word) :
    Collected (AgreeOn fun name => names name ∨ name ∈ collectors)
      (frame.collect callee index collectors results)
        (frame'.collect callee index collectors results) := by
  induction collectors generalizing names frame frame' index results with
  | nil => exact h.mono fun name hname => hname.resolve_right not_mem_nil
  | cons collector rest ih =>
    cases results with
    | nil => rfl
    | cons value values =>
      refine (ih (h.write collector value) (index + 1) values).imp fun hagree => ?_
      refine hagree.mono fun name hname => ?_
      rcases hname with hname | hname
      · exact .inl (.inl hname)
      · exact (mem_cons.mp hname).elim (fun heq => .inl (.inr heq)) .inr

/-- Collecting writes to the collectors only. -/
theorem read_collect {callee : String} {index : Nat} {collectors : List String}
    {results : List Word}
    (h : frame.collect callee index collectors results = .ok after) {name : String}
    (hname : name ∉ collectors) : after.read name = frame.read name := by
  induction collectors generalizing frame index results with
  | nil =>
    cases h
    rfl
  | cons collector rest ih =>
    obtain ⟨hne, hrest⟩ := not_or.mp (mt mem_cons.mpr hname)
    cases results with
    | nil => cases h
    | cons value values =>
      rw [ih h hrest, read_write, if_neg fun heq => hne heq.symm]

end Frame

open Frame (AgreeOn)

/-- Effects that do the same and leave frames that agree on some names. -/
inductive Effect.Alike (names : String → Prop) (frame frame' : Frame) : Effect → Effect → Prop where
  | proceed {after after' : Frame} {world : World} : AgreeOn names after after' →
      Alike names frame frame' (.proceed after world) (.proceed after' world)
  | call {callee : String} {args : List Word} {collectors : List String} :
      (∀ results, Collected (AgreeOn names) (frame.collect callee 0 collectors results)
        (frame'.collect callee 0 collectors results)) →
      Alike names frame frame' (.call callee args collectors) (.call callee args collectors)
  | fail {error : EvalError} : Alike names frame frame' (.fail error) (.fail error)

/-- Outcomes with the same machine, and with the same error or frames that agree on some names. -/
def Performed.Alike (names : String → Prop) (first second : Performed) : Prop :=
  first.2 = second.2 ∧ Collected (AgreeOn names) first.1 second.1

/-- Likeness on fewer names. -/
theorem Performed.Alike.mono {fewer : String → Prop} (h : Alike names first second)
    (hfewer : ∀ name, fewer name → names name) : Alike fewer first second :=
  ⟨h.1, h.2.imp fun hagree => hagree.mono hfewer⟩

/-- What follows is alike. -/
theorem Performed.Alike.andThen {more : String → Prop} {next : Frame → Machine → Performed}
    (h : Alike names first second)
    (hnext : ∀ {frame frame'} machine, AgreeOn names frame frame' →
      Alike more (next frame machine) (next frame' machine)) :
    Alike more (first.andThen next) (second.andThen next) := by
  obtain ⟨error | frame, machine⟩ := first
  · obtain ⟨second, machine'⟩ := second
    obtain ⟨rfl, hsecond⟩ := h
    obtain rfl := Collected.of_error hsecond
    exact ⟨rfl, rfl⟩
  · obtain ⟨second, machine'⟩ := second
    obtain ⟨rfl, hsecond⟩ := h
    obtain ⟨frame', rfl, hagree⟩ := Collected.of_ok hsecond
    exact hnext machine hagree

/-- Frames that agree on what it reads give an instruction one effect. -/
theorem Instr.alike_effect {frame' : Frame} (hreads : ∀ name ∈ instr.reads, names name)
    (hagree : AgreeOn names frame frame') (function : String) (world : World) :
    Effect.Alike (fun name => names name ∨ name ∈ instr.writes) frame frame'
      (instr.effect function frame world) (instr.effect function frame' world) := by
  have hall : AgreeOn (fun name => names name ∨ name ∈ (∅ : NameSet)) frame frame' :=
    hagree.mono fun name hname => hname.resolve_right Std.ExtTreeSet.not_mem_empty
  cases instr with
  | move target source =>
    have hsource : source.eval frame.read world.heap.read =
        source.eval frame'.read world.heap.read := by
      refine Expr.eval_congr _ fun name hname => hagree name (hreads name ?_)
      cases target <;> simp [reads, hname]
    rw [effect, effect, hsource]
    cases source.eval frame'.read world.heap.read with
    | error failure => exact .fail
    | ok value =>
      cases target with
      | temp temp =>
        refine .proceed ((hagree.write temp value).mono fun name hname => ?_)
        exact hname.imp_right fun hwritten => by simpa [writes, @eq_comm _ name] using hwritten
      | mem address =>
        have haddress : address.eval frame.read world.heap.read =
            address.eval frame'.read world.heap.read :=
          Expr.eval_congr _ fun name hname => hagree name (hreads name (by simp [reads, hname]))
        simp only [haddress]
        cases address.eval frame'.read world.heap.read with
        | error failure => exact .fail
        | ok place => exact .proceed hall
      | const | binary | symbol => exact .fail
  | call collectors callee args =>
    have hargs : Expr.evalAll frame.read world.heap.read args =
        Expr.evalAll frame'.read world.heap.read args := by
      refine Expr.evalAll_congr _ fun arg harg name hname => hagree name (hreads name ?_)
      exact NameSet.mem_unions.mpr ⟨arg.freeVars, mem_map.mpr ⟨arg, harg, rfl⟩, hname⟩
    rw [effect, effect, hargs]
    cases Expr.evalAll frame'.read world.heap.read args with
    | error failure => exact .fail
    | ok values =>
      refine .call fun results => (hagree.collect callee 0 collectors results).imp fun h => ?_
      exact h.mono fun name hname => hname.imp_right fun hwritten => by
        simpa [writes] using hwritten
  | jump | branch | label | ret => exact .proceed hall

/-- A frame that an effect leaves, for a call with its results. -/
def Effect.Leaves (frame after : Frame) : Effect → Prop
  | .proceed received _ => after = received
  | .call callee _ collectors => ∃ results, frame.collect callee 0 collectors results = .ok after
  | .fail _ => False

/-- An instruction leaves the names alone that it does not write. -/
theorem Instr.read_of_leaves {function name : String} {after : Frame} {world : World}
    (h : (instr.effect function frame world).Leaves frame after) (hname : name ∉ instr.writes) :
    after.read name = frame.read name := by
  cases instr with
  | move target source =>
    rw [effect] at h
    cases hsource : source.eval frame.read world.heap.read with
    | error failure => simp [hsource, Effect.Leaves] at h
    | ok value =>
      simp only [hsource] at h
      cases target with
      | temp temp =>
        have hne : temp ≠ name := by simpa [writes] using hname
        rw [show after = frame.write temp value from h, Frame.read_write, if_neg hne]
      | mem address =>
        cases haddress : address.eval frame.read world.heap.read with
        | error failure => simp [haddress, Effect.Leaves] at h
        | ok place =>
          simp only [haddress] at h
          rw [show after = frame from h]
      | const | binary | symbol => exact h.elim
  | call collectors callee args =>
    rw [effect] at h
    cases hargs : Expr.evalAll frame.read world.heap.read args with
    | error failure => simp [hargs, Effect.Leaves] at h
    | ok values =>
      simp only [hargs] at h
      obtain ⟨results, hcollect⟩ := h
      exact Frame.read_collect hcollect (by simpa [writes] using hname)
  | jump | branch | label | ret => rw [show after = frame from h]

namespace Machine

variable {function : String} {machine : Machine}

/-- Frames that agree on what an instruction reads agree on what it writes afterwards. -/
theorem alike_performOne (instr : Instr) {frame' : Frame}
    (hreads : ∀ name ∈ instr.reads, names name) (hagree : AgreeOn names frame frame')
    (function : String) (machine : Machine) :
    Performed.Alike (fun name => names name ∨ name ∈ instr.writes)
      (performOne function instr frame machine) (performOne function instr frame' machine) := by
  obtain ⟨table, world, fuel⟩ := machine
  cases fuel with
  | zero => exact ⟨rfl, rfl⟩
  | succ fuel =>
    have heffect := Instr.alike_effect hreads hagree function world
    rw [performOne, performOne]
    dsimp only
    generalize instr.effect function frame world = effect,
      instr.effect function frame' world = effect' at heffect
    cases heffect with
    | proceed hafter => exact ⟨rfl, hafter⟩
    | fail => exact ⟨rfl, rfl⟩
    | @call callee args collectors hcollected =>
      dsimp only
      rcases (⟨table, world, fuel⟩ : Machine).call callee args with ⟨error | results, after⟩
      · exact ⟨rfl, rfl⟩
      · exact ⟨rfl, hcollected results⟩

/-- An instruction that succeeds leaves a frame of its effect. -/
theorem leaves_of_performOne (h : (performOne function instr frame machine).1 = .ok after) :
    (instr.effect function frame machine.world).Leaves frame after := by
  obtain ⟨table, world, fuel⟩ := machine
  cases fuel with
  | zero => cases h
  | succ fuel =>
    rw [performOne] at h
    dsimp only at h ⊢
    cases hcase : instr.effect function frame world with
    | proceed received world' =>
      rw [hcase] at h
      exact (Except.ok.inj h).symm
    | fail error =>
      rw [hcase] at h
      cases h
    | call callee args collectors =>
      simp only [hcase] at h
      rcases hcall : (⟨table, world, fuel⟩ : Machine).call callee args with ⟨error | results, final⟩
      · simp only [hcall] at h
        cases h
      · simp only [hcall] at h
        exact ⟨results, h⟩

/-- Instructions leave the names alone that none of them writes. -/
theorem read_perform {instrs : List Instr}
    (h : (perform function instrs frame machine).1 = .ok after) {name : String}
    (hname : ∀ instr ∈ instrs, name ∉ instr.writes) : after.read name = frame.read name := by
  induction instrs generalizing frame machine with
  | nil =>
    cases h
    rfl
  | cons instr rest ih =>
    obtain ⟨hfirst, hrest⟩ := forall_mem_cons.mp hname
    rw [perform] at h
    rcases hone : performOne function instr frame machine with ⟨error | received, between⟩
    · rw [hone] at h
      cases h
    · rw [hone] at h
      have hleaves := leaves_of_performOne (congrArg Prod.fst hone)
      exact (ih h hrest).trans (Instr.read_of_leaves hleaves hfirst)

end Machine

end Flowgraph
