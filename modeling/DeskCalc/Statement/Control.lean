import DeskCalc.Expression
import DeskCalc.Statement.Body

/-!
# Branches, loops and jumps

The headers of `if`, `while` and `for`, and the jumps out of them. A header compiles its
conditions, makes its labels, and opens its body; the end of the body resolves the exit.

```text
while (c) s            for (i; c; u) s
                         i
    continue:          test:
      c                  c
      JUMP_ZERO exit     JUMP_ZERO exit
      s                  JUMP body
      JUMP continue    continue:
    exit:                u
                         JUMP test
                       body:
                         s
                         JUMP continue
                       exit:
```
-/

namespace DeskCalc

namespace Compile

/-- The context of a condition. -/
def conditionContext : Context := { condition := true, needsValue := true }

/-- The header `if (c)`. -/
def ifHeader : Compile Unit := do
  advance
  expect (.symbol .leftParen)
  expression conditionContext Ends.condition
  expect (.symbol .rightParen)
  let label ← nextLabel
  emitJumpZero label
  let _ ← openExit false
  openBody { ifBody := true }

/-- The header `while (c)`. -/
def whileHeader : Compile Unit := do
  advance
  expect (.symbol .leftParen)
  let _ ← continueHere
  let exit ← openExit true
  expression conditionContext Ends.condition
  expect (.symbol .rightParen)
  emitJumpZero exit
  openBody { inLoop := true, loopBody := true }

/-- A clause of a `for`, up to a token of the kind `stop`. POSIX does not allow it to be empty; an
empty clause compiles to `fallback`. -/
def forClause (ctx : Context) (ends : Ends) (stop : Token.Kind) (fallback : Compile Unit) :
    Compile Unit := do
  let span ← here
  let outcome ← if ← isAt stop then pure .empty else expressionOrEmpty ctx ends
  match outcome with
  | .value => pure ()
  | .empty =>
    fallback
    report .emptyForClause span

/-- The header `for (i; c; u)`. Its labels are the test, the update, the body and the exit, in this
order; two of them have jumps before they are made. -/
def forHeader : Compile Unit := do
  advance
  expect (.symbol .leftParen)
  forClause {} Ends.clause (.symbol .semicolon) (pure ())
  expect (.symbol .semicolon)
  let test ← nextLabel
  ensureLabel (← labelHere) test
  forClause conditionContext Ends.clause (.symbol .semicolon) (emit .one)
  expect (.symbol .semicolon)
  emitJumpZero (test + 3)
  emitJump (test + 2)
  ensureLabel (← continueHere) (test + 1)
  forClause {} Ends.condition (.symbol .rightParen) (pure ())
  if ← isAt (.symbol .rightParen) then
    emitJump test
    ensureLabel (← labelHere) (test + 2)
    ensureLabel (← openExit true) (test + 3)
    advance
    openBody { inLoop := true, loopBody := true }
  else unexpected

/-- Jump to a label of the loop around, which must be there. -/
def leaveLoop (label : Option Nat) (outside : Cause) : Compile Unit := do
  if (← topBlock).inLoop then
    match label with
    | some label =>
      emitJump label
      advance
    | none => refuseHere outside
  else refuseHere outside

/-- The statement `break`: jump to the end of the innermost loop. -/
def breakLoop : Compile Unit := do
  leaveLoop (((← get).exits.find? (·.isLoop)).map (·.label)) .breakOutsideLoop

/-- The statement `continue`: jump to where the innermost loop continues. -/
def continueLoop : Compile Unit := do
  leaveLoop (← get).continues.head? .continueOutsideLoop

/-- The end of a `return`, where `op` returns no value. POSIX wants parentheses around the value. -/
def returned (op : Opcode) (span : Span) (paren : Bool) : Outcome → Compile Unit
  | .empty => emit op
  | .value => do
    let f ← function
    if f.isVoid then refuse .returnValueInVoid span (some f.name)
    else
      if paren && (← get).previous == .symbol .rightParen then pure ()
      else report .returnParens span
      emit .ret

/-- The statement `return`, with or without a value. -/
def returnValue : Compile Unit := do
  if (← topBlock).inFunc then
    let isVoid := (← function).isVoid
    let empty : Opcode := if isVoid then .retVoid else .ret0
    let span ← here
    advance
    let paren ← isAt (.symbol .leftParen)
    if ← atDelimiter then emit empty
    else returned empty span paren (← expressionOrEmpty { needsValue := true } Ends.statement)
  else refuseHere .returnOutsideFunction

/-- Write an item of `print` or `stream` by `op`, and move to the next one if there is one. -/
def printNext (op : Opcode) : Compile (Unit ⊕ Unit) := do
  emit op
  if ← isAt (.symbol .comma) then
    advance
    if ← atDelimiter then refuseHere .invalidPrint else pure (.inl ())
  else if ← atDelimiter then pure (.inr ())
  else unexpected

/-- An item of `print` or `stream`. -/
def printStep (op : Opcode) (_ : Unit) : Compile (Unit ⊕ Unit) := do
  if ← isAt .string then string else expression { needsValue := true } Ends.printItem
  printNext op

/-- The items of `print` and `stream`, each of them written by `op`. -/
def printItems (op : Opcode) : Compile Unit := do
  advance
  if ← atDelimiter then refuseHere .invalidPrint else perToken (printStep op) ()

end Compile

end DeskCalc
