import Flowgraph.Flow.Breach
import Flowgraph.Flow.Error

/-!
# Outcomes of passes

A pass over a flow graph is done, or fails with an error about its input, or was called against its
contract. The first of several passes that is not done decides the outcome of all.
-/

namespace Flowgraph

/-- What a pass comes to. -/
inductive Outcome (α : Type) where
  | done (value : α)
  | failed (error : FlowError)
  | broken (breach : Breach)

namespace Outcome

variable {α β : Type}

/-- Go on with the value of a pass that is done. -/
def andThen (outcome : Outcome α) (next : α → Outcome β) : Outcome β :=
  match outcome with
  | done value => next value
  | failed error => failed error
  | broken breach => broken breach

/-- What follows is given the value. -/
@[simp] theorem done_andThen (value : α) (next : α → Outcome β) :
    (done value).andThen next = next value := rfl

/-- Nothing follows an error. -/
@[simp] theorem failed_andThen (error : FlowError) (next : α → Outcome β) :
    (failed error : Outcome α).andThen next = failed error := rfl

/-- Nothing follows a breach. -/
@[simp] theorem broken_andThen (breach : Breach) (next : α → Outcome β) :
    (broken breach : Outcome α).andThen next = broken breach := rfl

instance : Monad Outcome where
  pure := done
  bind := andThen

/-- The outcome of a pass that can only fail. -/
def ofErrors : Except FlowError α → Outcome α
  | .ok value => done value
  | .error error => failed error

/-- The outcome of a pass that can only be called against its contract. -/
def ofBreaches : Except Breach α → Outcome α
  | .ok value => done value
  | .error breach => broken breach

end Outcome

end Flowgraph
