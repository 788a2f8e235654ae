import DeskCalc.Expression.Operand

/-!
# Expressions

An expression is compiled in one pass from left to right. The code of an operand is written as
soon as it is read. An operator waits on the stack of operators until one that binds less tightly,
a closing parenthesis or the end of the expression makes it apply, so that the code comes out in
postfix order.

Nested expressions use the same stack: the operators of one expression are those above the height
`base` the stack had when it began.
-/

namespace DeskCalc

namespace Compile

/-! ## Waiting operators -/

/-- The operators above the height `base`, the latest first. -/
def above (base : Nat) (operators : List Operator) : List Operator :=
  operators.take (operators.length - base)

/-- Write the instructions of some operators in order. -/
def emitOperators : List Operator → Compile Unit
  | [] => pure ()
  | op :: ops => do
    match op.opcode? with
    | some code => emit code
    | none => pure ()
    emitOperators ops

/-- Take the latest `n` operators off the stack. -/
def dropOperators (n : Nat) : Compile Unit :=
  modify fun p => { p with operators := p.operators.drop n }

/-- Let an operator wait. -/
def pushOperator (op : Operator) : Compile Unit :=
  modify fun p => { p with operators := op :: p.operators }

/-- Apply every operator that applies before `op` does, and let `op` wait. -/
def awaitOperand (base : Nat) (op : Operator) (t : Tally) : Compile Tally := do
  let ready := (above base (← get).operators).takeWhile (·.appliesBefore op)
  emitOperators ready
  dropOperators ready.length
  pushOperator op
  return t.apply ready

/-- The latest operator binds tighter than an assignment, so that the operand read last belongs to
a larger value. -/
def bindsTighter (base : Nat) (operators : List Operator) : Bool :=
  (above base operators).head?.any fun op =>
    op != .paren && op.precedence < (Operator.assign none).precedence

/-! ## One token after the other -/

/-- What a token did to the expression. -/
inductive Turn
  /-- The expression goes on. -/
  | more (t : Tally)
  /-- The token is behind the expression. -/
  | stop (t : Tally)
  /-- The expression was `()`. -/
  | empty

/-- What `++` and `--` are applied to when they come first. -/
def stepTarget (sub : Sub) (ctx : Context) (span : Span) : Compile Unit := do
  match ← kind with
  | .name =>
    let _ ← named sub { ctx with wholeArray := false } false
  | .keyword (.setting .scale) =>
    advance
    if ← isAt (.symbol .leftParen) then refuse .invalidAssignment span
    else emit (.setting .scale)
  | .keyword (.setting s) =>
    emit (.setting s)
    advance
  | _ => refuse .invalidAssignment span

/-- The step `++`, if `up`, or `--`. Behind an operand it is an instruction of its own; before one
it is the assignment of a sum. -/
def stepBy (sub : Sub) (ctx : Context) (up : Bool) (t : Tally) : Compile Tally := do
  let p ← get
  let span := p.token.span
  if t.stepped || p.previous = .symbol .increment || p.previous = .symbol .decrement ||
      p.previous = .symbol .rightParen then
    refuse .invalidAssignment span
  else if t.complete then
    if t.assignable then
      emit (if up then .inc else .dec)
      advance
      return t.postStep
    else refuse .invalidAssignment span
  else
    advance
    stepTarget sub ctx span
    emit .one
    emit (.assign (some (if up then .plus else .minus)))
    return t.preStep

/-- A closing parenthesis. One that was not opened in this expression is behind it. -/
def closeParen (base : Nat) (t : Tally) : Compile Turn := do
  let p ← get
  let waiting := above base p.operators
  if p.previous = .symbol .leftParen then
    if t.values = 0 ∧ waiting.all (· == .paren) = true then
      dropOperators waiting.length
      advance
      return .empty
    else refuseHere .invalidExpression
  else if t.complete then
    if t.parens = 0 then return .stop t
    else
      let ready := waiting.takeWhile (· != .paren)
      emitOperators ready
      if ready.length = waiting.length then refuseHere .invalidExpression
      else
        dropOperators (ready.length + 1)
        advance
        return .more ((t.apply ready).closeParen ready)
  else refuseHere .invalidExpression

/-- An operator with its operands around it or behind it. -/
def applyOperator (base : Nat) (op : Operator) (t : Tally) : Compile Tally := do
  if op.isAssignment && (!t.assignable || bindsTighter base (← get).operators) then
    refuseHere .invalidAssignment
  else if op.isUnary == t.complete then refuseHere .invalidExpression
  else
    let t := if op.isRelational then { t with relations := t.relations + 1 } else t
    let t ← awaitOperand base op t
    advance
    return t.operator

/-- Compile the current token as part of an expression. -/
def turn (sub : Sub) (base : Nat) (ctx : Context) (t : Tally) : Compile Turn := do
  match ← kind with
  | .symbol .increment => return .more (← stepBy sub ctx true t)
  | .symbol .decrement => return .more (← stepBy sub ctx false t)
  | .symbol .dollar =>
    if t.complete then
      emit .trunc
      advance
      return .more t.truncated
    else refuseHere .invalidExpression
  | .symbol (.arith .minus) =>
    if t.complete then
      let t ← awaitOperand base (.arith .minus) t
      advance
      return .more t.operator
    else
      pushOperator .neg
      advance
      return .more t.operator
  | .symbol .leftParen =>
    if t.complete then refuseHere .invalidExpression
    else
      pushOperator .paren
      advance
      return .more t.openParen
  | .symbol .rightParen => closeParen base t
  | .symbol s =>
    match Operator.ofSymbol? s with
    | some op => return .more (← applyOperator base op t)
    | none => return .stop t
  | .string =>
    report .stringOperand (← here)
    if t.complete then refuseHere .invalidExpression
    else return .more (t.operand (← operand sub ctx))
  | k =>
    if k.inExpression then
      if t.complete then refuseHere .invalidExpression
      else return .more (t.operand (← operand sub ctx))
    else return .stop t

/-- One token of an expression. Only the first operand can be a whole array. -/
def turnStep (sub : Sub) (base : Nat) (state : Context × Tally) :
    Compile ((Context × Tally) ⊕ Option Tally) := do
  let (ctx, t) := state
  match ← turn sub base ctx t with
  | .more t => pure (.inl ({ ctx with wholeArray := false }, t))
  | .stop t => pure (.inr (some t))
  | .empty => pure (.inr none)

/-- Compile the tokens of an expression up to its end; `none` if it is `()`. -/
def turns (sub : Sub) (base : Nat) (ctx : Context) : Compile (Option Tally) :=
  perToken (turnStep sub base) (ctx, {})

/-! ## The end of an expression -/

/-- Apply the operators that still wait. None of them can be a parenthesis. -/
def drain (base : Nat) (t : Tally) : Compile Tally := do
  let waiting := above base (← get).operators
  if waiting.contains .paren then refuseHere .invalidExpression
  else
    emitOperators waiting
    dropOperators waiting.length
    return t.finish waiting

/-- Report the comparisons that POSIX does not allow. -/
def reportRelations (ctx : Context) (t : Tally) : Compile Unit := do
  if ctx.condition then
    if t.relations > 1 then report .multipleRelational (← here) else pure ()
  else if t.relations > 0 then report .relationalPosition (← here)
  else pure ()

/-- Leave no value on the stack, if the end of the code allows it; whether it did. -/
def suppressValue (t : Tally) : Compile Bool := do
  let f ← function
  match f.code.discardValue? t (← here).line with
  | some code =>
    putFunction { f with code := code }
    return true
  | none => return false

/-- Do with the value what the context wants: keep it, print it, or drop it. A parenthesis at the
start, `parenFirst`, makes an assignment a value. -/
def settleValue (ctx : Context) (parenFirst : Bool) (t : Tally) : Compile Unit := do
  let suppressed ← if ctx.needsValue || parenFirst then pure false else suppressValue t
  if ctx.printed then
    if !suppressed && (parenFirst || !t.assigned) then emit .print else pure ()
  else if !ctx.needsValue && !suppressed then emit .pop
  else pure ()

/-- The end of an expression whose tokens have been compiled. -/
def endExpression (base : Nat) (ctx : Context) (ends : Ends) (parenFirst : Bool) (t : Tally) :
    Compile Unit := do
  let t ← drain base t
  if t.values = 1 then
    if (ends.contains (← kind)) || (← atDelimiter) then
      reportRelations ctx t
      settleValue ctx parenFirst t
      if ends.contains .newline then pure () else skipNewlines
    else refuseHere .invalidExpression
  else refuseHere .invalidExpression

/-- Compile an expression, its nested expressions by `sub`. -/
def expressionWith (sub : Sub) (ctx : Context) (ends : Ends) : Compile Outcome := do
  let base := (← get).operators.length
  if ctx.answer then pure () else skipNewlines
  let parenFirst ← isAt (.symbol .leftParen)
  match ← turns sub base ctx with
  | some t =>
    endExpression base ctx ends parenFirst t
    return .value
  | none => return .empty

/-- An expression that was `()` has no value. -/
def requireValue : Outcome → Compile Unit
  | .value => pure ()
  | .empty => refuseHere .emptyExpression

/-- Compile an expression with at most one level of nested expressions for each entry of
`bound`. -/
def expressionAt {γ : Type} : List γ → Context → Ends → Compile Outcome
  | [], ctx, ends => expressionWith (fun _ _ => throw (.fault .unbounded)) ctx ends
  | _ :: bound, ctx, ends =>
    expressionWith (fun ctx ends => do requireValue (← expressionAt bound ctx ends)) ctx ends

/-- Compile an expression, which may be `()`. Every level of nesting takes a token. -/
def expressionOrEmpty (ctx : Context) (ends : Ends) : Compile Outcome := do
  expressionAt (← get).upcoming ctx ends

/-- Compile an expression, which may not be `()`. -/
def expression (ctx : Context) (ends : Ends) : Compile Unit := do
  requireValue (← expressionOrEmpty ctx ends)

end Compile

end DeskCalc
