import DeskCalc.Listing
import DeskCalc.Statement

/-!
# Compiling chunks of source

The operations of a session. `Session.compile` compiles a chunk and continues where the chunk
before it ended, `Session.compileAnswer` compiles the answer to a `read()`, and `Session.finish`
ends the input. A chunk that is refused is taken back to the last checkpoint.

`Program.ofSource` compiles a whole text.
-/

namespace DeskCalc

namespace Compile

/-- A bound on the number of items of a chunk: an item moves past a token, or closes a block or an
`if` that waits for its `else`. -/
def itemBound (p : Pass) : Nat :=
  4 * (p.upcoming.length + 2) + 2 * p.blocks.depth + 2

/-- The pass after an item. -/
def committed (p : Pass) : Pass := { p with toSession := p.toSession.commit }

/-- The end of an item. -/
def itemEnd : Compile (Unit ⊕ Status) := do
  if (← get).quitting then return .inr .quit
  else
    modify committed
    return .inl ()

/-- An item of a chunk, or the end of the chunk. -/
def nextItem : Compile (Unit ⊕ Status) := do
  if ← isAt .eof then return .inr (← get).status
  else
    item
    itemEnd

/-- The items of a chunk up to its end. -/
def chunk : Compile Status := do
  advance
  iterate (fun (_ : Unit) => nextItem) (List.replicate (itemBound (← get)) ()) ()

/-- The answer to a `read()`: one expression. -/
def answer : Compile Unit := do
  advance
  expression { answer := true, needsValue := true } Ends.answer
  emit .ret

/-- The end of the input. -/
def inputEnd : Compile Unit := do
  advance
  if ← closeAll then pure () else refuseHere .blockEnd

end Compile

namespace Session

/-- Run a part of the compiler over a text. -/
def run {α : Type} (s : Session) (source : String) (m : Compile α) : Except Stop α × Session :=
  match m (Pass.start s source) with
  | .ok a p => (.ok a, p.toSession)
  | .error e p => (.error e, p.toSession)

/-- Compile a chunk of source. If it is refused the session is as after the last complete
statement. -/
def compile (s : Session) (source : String) : Except Stop Status × Session :=
  match s.run source Compile.chunk with
  | (.error (.refused d), s) => (.error (.refused d), s.reset)
  | result => result

/-- Forget the answer to the last `read()`. -/
def clearAnswer (s : Session) : Session :=
  { s with program := s.program.modifyFunction Function.clear Program.answerId }

/-- Compile the answer to a `read()` into its function. Afterwards code goes to the main
program. -/
def compileAnswer (s : Session) (text : String) : Except Stop Unit × Session :=
  let reading := { s.clearAnswer with target := Program.answerId }
  match reading.run text Compile.answer with
  | (.error (.refused d), s) =>
    (.error (.refused d), { s.clearAnswer with operators := [], target := Program.mainId })
  | (result, s) => (result, { s with target := Program.mainId })

/-- End the input: an `if` that waits for its `else` gets none, and everything else must be
closed. -/
def finish (s : Session) : Except Stop Unit × Session :=
  match s.run "" Compile.inputEnd with
  | (.ok (), s) => (.ok (), s.commit)
  | (.error (.refused d), s) => (.error (.refused d), s.reset)
  | result => result

end Session

namespace Program

/-- Compile a whole text. Nothing behind a `quit` counts. -/
def ofSource (source : String) (options : Options) : Except Stop Program :=
  match (Session.new options).compile source with
  | (.error e, _) => .error e
  | (.ok .quit, s) => .ok s.program
  | (.ok _, s) =>
    match s.finish with
    | (.error e, _) => .error e
    | (.ok (), s) => .ok s.program

/-- Compile a whole text and list its functions. -/
def listingOfSource (source : String) (options : Options) : Except Stop String :=
  (ofSource source options).map Program.listing

end Program

end DeskCalc
