import DeskCalc.Session
import DeskCalc.Token.Reading

/-!
# One pass over a chunk of source

A `Pass` is a session together with the place in the chunk that is being compiled: the current
token, the kind of the token before it, and the tokens still to come. `Compile` is the monad of
the compiler. A computation that stops keeps the pass as it was when it stopped, because names and
warnings survive a failure.

This module has what all parts of the compiler share: moving through the tokens, complaining,
loops, writing code, and labels.
-/

namespace DeskCalc

/-- An assumption of the compiler about its own state does not hold. -/
inductive Fault
  /-- A label is missing, or was resolved before. -/
  | label (fault : LabelFault)
  /-- A label did not get the index that jumps to it have been given. -/
  | labelOrder (created expected : Nat)
  /-- There is no function to write code to. -/
  | noFunction (id : Nat)
  /-- A braced body is closed at another token than its brace. -/
  | noBrace
  /-- A loop did not end within its bound. -/
  | unbounded
deriving DecidableEq, Repr

/-- The text of a fault. -/
def Fault.message : Fault → String
  | label fault => fault.message
  | labelOrder created expected => s!"label {created} stands where label {expected} is expected"
  | noFunction id => s!"function {id} does not exist"
  | noBrace => "a braced body ends without its brace"
  | unbounded => "a loop exceeds its bound"

/-- Why a compilation stops. -/
inductive Stop
  /-- The source is refused. -/
  | refused (d : Diagnostic)
  /-- The compiler cannot go on. -/
  | fault (f : Fault)
deriving DecidableEq, Repr

/-- A session and a place in the chunk that is being compiled. -/
structure Pass extends Session where
  /-- The current token. -/
  token : Token
  /-- The kind of the token before the current one. -/
  previous : Token.Kind
  /-- The tokens behind the current one. -/
  upcoming : List Reading
  /-- The statement `quit` was met. -/
  quitting : Bool := false
deriving DecidableEq, Repr

/-- The pass that starts a chunk. No token has been read; a line feed stands for what came
before. -/
def Pass.start (s : Session) (source : String) : Pass where
  toSession := s
  token := ⟨.newline, "", ⟨0, 0, 0⟩⟩
  previous := .newline
  upcoming := readTokens s.strictness source

/-- The monad of the compiler. -/
abbrev Compile := EStateM Stop Pass

namespace Compile

/-! ## Complaints -/

/-- Refuse the source. -/
def refuse {α : Type} (cause : Cause) (span : Span) (name : Option String := none) : Compile α :=
  throw (.refused ⟨cause, span, name⟩)

/-- Refuse the source because of the current token. -/
def refuseHere {α : Type} (cause : Cause) : Compile α := do
  refuse cause (← get).token.span

/-- Refuse the current token. -/
def unexpected {α : Type} : Compile α := do
  let t := (← get).token
  if t.kind = .eof then refuse .unexpectedEnd t.span
  else refuse .unexpectedToken t.span (some t.kind.description)

/-- Refuse the source with the complaint of a table, or go on with its answer. -/
def lift {α : Type} : Except Diagnostic α → Compile α
  | .ok a => pure a
  | .error d => throw (.refused d)

/-- Report a construct that POSIX does not have, as strictly as the session wants it. -/
def report (v : Violation) (span : Span) : Compile Unit := do
  match (← get).strictness with
  | .lenient => pure ()
  | .warn => modify fun p => { p with warnings := p.warnings ++ [⟨.posix v, span, none⟩] }
  | .strict => refuse (.posix v) span

/-! ## Tokens -/

/-- The kind of the current token. -/
def kind : Compile Token.Kind := return (← get).token.kind

/-- The place of the current token. -/
def here : Compile Span := return (← get).token.span

/-- The current token is of the kind `k`. -/
def isAt (k : Token.Kind) : Compile Bool := return (← get).token.kind == k

/-- Move to the next token. Its warnings become warnings of the session, and an error token is
refused. At the end of the text there is nowhere to move. -/
def advance : Compile Unit := do
  let p ← get
  match p.upcoming with
  | [] => set { p with previous := p.token.kind }
  | r :: rest =>
    set { p with
      previous := p.token.kind
      token := r.token
      upcoming := rest
      warnings := p.warnings ++ r.warnings.map Notice.toDiagnostic }
    match r.error with
    | some n => throw (.refused n.toDiagnostic)
    | none => pure ()

/-- Move past a token of the kind `k`, which must be there. -/
def expect (k : Token.Kind) : Compile Unit := do
  if ← isAt k then advance else unexpected

/-! ## Loops -/

/-- Repeat `step` until it gives a result: at most once for each entry of `bound`, and once
more. -/
def iterate {α β γ : Type} (step : α → Compile (α ⊕ β)) : List γ → α → Compile β
  | [], a => do
    match ← step a with
    | .inl _ => throw (.fault .unbounded)
    | .inr b => pure b
  | _ :: bound, a => do
    match ← step a with
    | .inl a => iterate step bound a
    | .inr b => pure b

/-- Repeat `step` until it gives a result, where every repetition moves past a token. -/
def perToken {α β : Type} (step : α → Compile (α ⊕ β)) (a : α) : Compile β := do
  iterate step (← get).upcoming a

/-- Move past a token of the kind `p`, or stop. -/
def skipStep (p : Token.Kind → Bool) (_ : Unit) : Compile (Unit ⊕ Unit) := do
  if p (← kind) then
    advance
    pure (.inl ())
  else pure (.inr ())

/-- Move past all tokens up to the first one that is not of the kind `p`. -/
def skipWhile (p : Token.Kind → Bool) : Compile Unit := perToken (skipStep p) ()

/-- Move past line feeds. -/
def skipNewlines : Compile Unit := skipWhile (· == .newline)

/-! ## Writing code -/

/-- The function that receives code. -/
def function : Compile Function := do
  let p ← get
  match p.program.function? p.target with
  | some f => pure f
  | none => throw (.fault (.noFunction p.target))

/-- Put a changed function in place of the one that receives code. -/
def putFunction (f : Function) : Compile Unit :=
  modify fun p => { p with program := p.program.modifyFunction (fun _ => f) p.target }

/-- Change the function that receives code. -/
def modifyFunction (change : Function → Function) : Compile Unit := do
  let p ← get
  if p.program.hasFunction p.target then
    set { p with program := p.program.modifyFunction change p.target }
  else throw (.fault (.noFunction p.target))

/-- Write an instruction with its operands for the line of the current token. -/
def emitWith (op : Opcode) (operands : List Nat) : Compile Unit := do
  let line := (← here).line
  modifyFunction fun f => { f with code := f.code.write op operands line }

/-- Write an instruction without operands. -/
def emit (op : Opcode) : Compile Unit := emitWith op []

/-- Write a jump to a label. -/
def emitJump (label : Nat) : Compile Unit := emitWith .jump [label]

/-- Write a jump to a label that is taken when a value is zero. -/
def emitJumpZero (label : Nat) : Compile Unit := emitWith .jumpZero [label]

/-! ## Labels -/

/-- The index the next label will have. -/
def nextLabel : Compile Nat := return (← function).labels.size

/-- Make a label. -/
def makeLabel (l : Label) : Compile Nat := do
  let f ← function
  putFunction { f with labels := f.labels.push l }
  return f.labels.size

/-- Make a label here. -/
def labelHere : Compile Nat := do
  makeLabel (.known (← function).code.size)

/-- Make a label here that `continue` jumps to. -/
def continueHere : Compile Nat := do
  let label ← labelHere
  modify fun p => { p with continues := label :: p.continues }
  return label

/-- Make the pending label at the end of a block. -/
def openExit (isLoop : Bool) : Compile Nat := do
  let label ← makeLabel .pending
  modify fun p => { p with exits := ⟨label, isLoop⟩ :: p.exits }
  return label

/-- The innermost block ends here: resolve its label. -/
def resolveExit : Compile Unit := do
  let p ← get
  match p.exits with
  | [] => pure ()
  | exit :: exits =>
    set { p with exits := exits }
    let f ← function
    match f.labels.resolve exit.label f.code.size with
    | .ok labels => putFunction { f with labels := labels }
    | .error fault => throw (.fault (.label fault))

/-- A label must have got the index that was counted on. -/
def ensureLabel (created expected : Nat) : Compile Unit :=
  if created = expected then pure () else throw (.fault (.labelOrder created expected))

/-! ## Tables -/

/-- Change the program and answer an index, or refuse the source. -/
def intern (f : Program → Except Diagnostic (Nat × Program)) : Compile Nat := do
  let (index, program) ← lift (f (← get).program)
  modify fun p => { p with program := program }
  return index

/-! ## Blocks -/

/-- The innermost block. -/
def topBlock : Compile Block := return (← get).blocks.top

/-- Change the open blocks. -/
def modifyBlocks (f : BlockStack → BlockStack) : Compile Unit :=
  modify fun p => { p with blocks := f p.blocks }

/-- The current token ends a statement. A closing brace does if some brace is open, and `else`
does if it belongs to an `if` whose body ends here. -/
def isDelimited (p : Pass) : Bool :=
  match p.token.kind with
  | .newline | .eof | .symbol .semicolon => true
  | .symbol .rightBrace => p.blocks.hasBrace
  | .keyword .elseBranch =>
    BlockStack.elseBinds (p.previous == .symbol .rightBrace) p.blocks.toList
  | _ => false

/-- Whether the current token ends a statement. -/
def atDelimiter : Compile Bool := do return isDelimited (← get)

end Compile

end DeskCalc
