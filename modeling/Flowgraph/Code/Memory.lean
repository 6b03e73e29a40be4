import Flowgraph.Code.Expr
import Flowgraph.Code.Slot

/-!
# Frames and the heap

A frame holds the temporaries of one running function, the heap the words that all functions share.
What was never written reads as zero; a frame still knows which temporaries were written.
-/

namespace Flowgraph

/-- The temporaries that a running function has written. -/
structure Frame where
  temps : NameMap Word := ∅

namespace Frame

/-- The value of a temporary. -/
def read (frame : Frame) (name : String) : Word :=
  frame.temps.getD name 0

/-- Give a temporary a value. -/
def write (frame : Frame) (name : String) (value : Word) : Frame :=
  ⟨frame.temps.insert name value⟩

/-- A write changes what is read at its own name only. -/
@[simp] theorem read_write (frame : Frame) (name other : String) (value : Word) :
    (frame.write name value).read other = if name = other then value else frame.read other := by
  simp [read, write, Std.ExtTreeMap.getD_insert]

/-- Write arguments to the slots from `index` on. -/
def writeArguments (frame : Frame) : Nat → List Word → Frame
  | _, [] => frame
  | index, value :: rest =>
    (frame.write (Slot.argument index) value).writeArguments (index + 1) rest

/-- The frame in which a function starts: its arguments in their slots. -/
def ofArguments (args : List Word) : Frame :=
  writeArguments {} 0 args

/-- The written result slots from `index` on, up to the first one not written, at most `count`. -/
def resultsFrom (frame : Frame) : Nat → Nat → List Word
  | 0, _ => []
  | count + 1, index =>
    match frame.temps[Slot.result index]? with
    | none => []
    | some value => value :: frame.resultsFrom count (index + 1)

/-- The results of a function that stops with this frame: the unbroken run of written result slots.
-/
def results (frame : Frame) : List Word :=
  frame.resultsFrom frame.temps.size 0

end Frame

/-- The words in memory that were written. -/
structure Heap where
  cells : Std.ExtTreeMap Word Word compare := ∅

namespace Heap

/-- The word at an address. -/
def read (heap : Heap) (address : Word) : Word :=
  heap.cells.getD address 0

/-- Write a word to an address. -/
def write (heap : Heap) (address value : Word) : Heap :=
  ⟨heap.cells.insert address value⟩

/-- A write changes what is read at its own address only. -/
@[simp] theorem read_write (heap : Heap) (address other value : Word) :
    (heap.write address value).read other = if address = other then value else heap.read other := by
  simp [read, write, Std.ExtTreeMap.getD_insert]

end Heap

end Flowgraph
