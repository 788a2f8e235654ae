import DeskCalc.Block
import DeskCalc.Operator
import DeskCalc.Program

/-!
# Sessions

Source arrives in chunks, often a line at a time, and a chunk may end inside a block. A `Session`
is what lasts from one chunk to the next: the program so far, the open blocks with the labels
their ends will resolve, and the warnings nobody has asked for yet.

The code outside all functions grows statement by statement. When a statement ends with nothing
open its end is a checkpoint, and `Session.reset` takes the program back there after a failure.
-/

namespace DeskCalc

/-- What may be done after a chunk. -/
inductive Status
  /-- Everything is closed, and the main code can run. -/
  | ready
  /-- Some block is open, or an `else` may follow. -/
  | incomplete
  /-- The statement `quit` was met, and nothing behind it was looked at. -/
  | quit
deriving DecidableEq, Repr

/-- The pending label at the end of an open block. -/
structure Exit where
  label : Nat
  /-- The block is a loop, so that `break` jumps here. -/
  isLoop : Bool
deriving DecidableEq, Repr

/-- The sizes of the main code and its labels when nothing was open. -/
structure Checkpoint where
  code : Nat := 0
  labels : Nat := 0
deriving DecidableEq, Repr

/-- What lasts from one chunk of source to the next. -/
structure Session where
  program : Program
  strictness : Strictness
  blocks : BlockStack := {}
  /-- The labels at the ends of open blocks, the innermost first. -/
  exits : List Exit := []
  /-- The labels `continue` jumps to, the innermost loop first. -/
  continues : List Nat := []
  /-- The operators that wait for their operands, the latest first. -/
  operators : List Operator := []
  /-- The function that receives code. -/
  target : Nat := Program.mainId
  /-- The body of a function has just begun, so that `auto` may follow. -/
  autoAllowed : Bool := false
  /-- The warnings recorded so far, the latest last. -/
  warnings : List Diagnostic := []
  checkpoint : Checkpoint := {}
deriving DecidableEq, Repr

namespace Session

/-- A session in which nothing has been compiled. -/
def new (options : Options) : Session where
  program := Program.new options.limits
  strictness := options.strictness

/-- Nothing is open, and code goes to the main program. -/
def isReady (s : Session) : Bool := s.target == Program.mainId && s.blocks.isIdle

/-- More source is needed before the main code can run. -/
def needsMore (s : Session) : Bool := !s.isReady

/-- What may be done now. -/
def status (s : Session) : Status := if s.isReady then .ready else .incomplete

/-- Remember the end of the main code, if nothing is open. -/
def commit (s : Session) : Session :=
  if s.isReady then
    { s with checkpoint := ⟨s.program.main.code.size, s.program.main.labels.size⟩ }
  else s

/-- Forget the function that is being defined, if one is. The program has it in every session that
calls lead to. -/
def abandonDefinition (s : Session) : Session :=
  if s.target = Program.mainId then s
  else
    { s with
      program := s.program.modifyFunction (fun f => { f.clear with defined := false }) s.target
      target := Program.mainId }

/-- Take the main code back to the checkpoint. -/
def rollBack (s : Session) : Session :=
  let cut (f : Function) : Function :=
    { f with
      code := f.code.truncate s.checkpoint.code
      labels := f.labels.truncate s.checkpoint.labels }
  { s with program := s.program.modifyFunction cut Program.mainId }

/-- Throw away the statement in progress: the function that is being defined, the main code behind
the checkpoint, and everything that is open. -/
def reset (s : Session) : Session :=
  { s.abandonDefinition.rollBack with
    blocks := {}
    exits := []
    continues := []
    operators := []
    autoAllowed := false }

/-- The warnings so far, and the session without them. -/
def takeWarnings (s : Session) : List Diagnostic × Session :=
  (s.warnings, { s with warnings := [] })

end Session

end DeskCalc
