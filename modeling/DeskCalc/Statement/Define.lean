import DeskCalc.Statement.Body

/-!
# Function definitions

`define name(parameters)` makes the function the one that receives code and opens its body. The
closing brace of the body returns to the main code. A function may be called before its
definition, and a later definition replaces an earlier one.
-/

namespace DeskCalc

namespace Compile

/-- Add a local to the function that receives code. -/
def declareLocal (t : Token) (localKind : LocalKind) : Compile Unit := do
  let index ← intern fun p =>
    if localKind.isArray then p.internArray t.text t.span else p.internVar t.text t.span
  match (← function).insertLocal? ⟨index, localKind⟩ with
  | some f => putFunction f
  | none => refuse .duplicateLocal t.span (some t.text)

/-- Brackets `[]` behind the name of a local, if they are there. -/
def arrayMark : Compile Bool := do
  if ← isAt (.symbol .leftBracket) then
    advance
    if ← isAt (.symbol .rightBracket) then
      advance
      return true
    else refuseHere .invalidFunction
  else return false

/-- A comma behind a local, if it is there. -/
def commaMark : Compile Bool := do
  if ← isAt (.symbol .comma) then
    advance
    return true
  else return false

/-- A star before the name of a parameter, if it is there. -/
def referenceMark : Compile Bool := do
  if ← isAt (.symbol (.arith .multiply)) then
    report .referenceParameter (← here)
    advance
    return true
  else return false

/-- How a parameter is bound. Only an array can be a reference. -/
def parameterKind (t : Token) (reference isArray : Bool) : Compile LocalKind :=
  match reference, isArray with
  | true, true => pure .reference
  | true, false => refuse .referenceNotArray t.span (some t.text)
  | false, true => pure .array
  | false, false => pure .scalar

/-- One parameter, and whether a comma stands behind it. -/
def parameter : Compile Bool := do
  let reference ← referenceMark
  let t := (← get).token
  if t.kind = .name then
    advance
    let localKind ← parameterKind t reference (← arrayMark)
    let comma ← commaMark
    declareLocal t localKind
    modifyFunction fun f => { f with nparams := f.nparams + 1 }
    return comma
  else refuseHere .invalidFunction

/-- A parameter, or the end of the parameters. -/
def parameterStep (comma : Bool) : Compile (Bool ⊕ Unit) := do
  if ← isAt (.symbol .rightParen) then
    if comma then refuseHere .invalidFunction else pure (.inr ())
  else if (← function).nparams > 0 && !comma then refuseHere .invalidFunction
  else return .inl (← parameter)

/-- The parameters, up to the closing parenthesis. -/
def parameters : Compile Unit := perToken parameterStep false

/-- The name of the function behind `define`, and whether `void` stands before it. -/
def functionName : Compile (Token × Bool) := do
  let t := (← get).token
  if t.kind = .name then
    advance
    if t.text = "void" ∧ (← kind) = .name then
      report .voidFunction t.span
      let t := (← get).token
      advance
      return (t, true)
    else return (t, false)
  else refuseHere .invalidFunction

/-- Open the body of a function, at the parenthesis behind its parameters. POSIX wants the brace on
the same line. -/
def openFunction : Compile Unit := do
  openBody { inFunc := true, funcBody := true }
  modifyFunction fun f => { f with defined := true }
  advance
  if ← isAt (.symbol .leftBrace) then pure () else report .braceOnNewLine (← here)

/-- The header of a function, from `define` up to its opening brace. -/
def define : Compile Unit := do
  advance
  let (t, isVoid) ← functionName
  if ← isAt (.symbol .leftParen) then
    let id ← intern (·.internFunction t.text t.span)
    modify fun p => { p with target := id }
    modifyFunction fun f => { f.clear with isVoid := isVoid }
    advance
    parameters
    openFunction
  else refuse .invalidFunction t.span (some t.text)

/-- A local behind `auto`, or the end of the locals. -/
def autoStep (state : Nat × Bool) : Compile ((Nat × Bool) ⊕ (Nat × Bool)) := do
  let (count, comma) := state
  let t := (← get).token
  if t.kind = .name then
    if count > 0 && !comma then refuseHere .invalidFunction
    else
      advance
      let isArray ← arrayMark
      let comma ← commaMark
      declareLocal t (if isArray then .array else .scalar)
      pure (.inl (count + 1, comma))
  else pure (.inr (count, comma))

/-- The statement `auto`: the locals of a function besides its parameters. It can only be the first
statement of the body. -/
def autoDecl : Compile Unit := do
  if (← get).autoAllowed then
    advance
    modify fun p => { p with autoAllowed := false }
    let (count, comma) ← perToken autoStep (0, false)
    if comma then refuseHere .invalidFunction
    else if count = 0 then refuseHere .emptyAuto
    else if ← atDelimiter then pure ()
    else unexpected
  else refuseHere .misplacedAuto

end Compile

end DeskCalc
