import DeskCalc.Expression.Tally
import DeskCalc.Pass

/-!
# Operands

An operand is a literal, a variable, an element of an array, a call, a setting, or a builtin
function with its arguments. Arguments and subscripts are expressions themselves; how those are
compiled is a parameter `sub` here, and `DeskCalc.Expression` ties the knot.
-/

namespace DeskCalc

/-- The kinds of token that may end an expression, besides the delimiters of a statement. -/
abbrev Ends := List Token.Kind

namespace Ends

/-- An expression that is a statement. -/
def statement : Ends := [.newline, .symbol .semicolon, .symbol .rightBrace, .eof]

/-- An argument of a function or builtin. -/
def argument : Ends := [.symbol .rightParen, .symbol .comma]

/-- An item of `print` or `stream`. -/
def printItem : Ends := [.symbol .comma, .newline, .symbol .semicolon, .eof]

/-- A condition in parentheses, and the last clause of a `for`. -/
def condition : Ends := [.symbol .rightParen]

/-- A subscript. -/
def subscript : Ends := [.symbol .rightBracket]

/-- The first two clauses of a `for`. -/
def clause : Ends := [.symbol .semicolon]

/-- The answer to a `read()`. -/
def answer : Ends := [.newline, .eof]

end Ends

namespace Compile

/-- How a nested expression is compiled. -/
abbrev Sub := Context → Ends → Compile Unit

/-- The digits of a number, without the continued line ends among them. -/
def digits (text : String) : String := String.ofList (text.toList.filter Scan.continuesNumber)

/-- A number. Zero and one have instructions of their own. -/
def number : Compile Unit := do
  let t := (← get).token
  let text := digits t.text
  if text = "0" then emit .zero
  else if text = "1" then emit .one
  else
    let index ← intern (·.internConstant (.number text) t.span)
    emitWith .num [index]
  advance

/-- A string. -/
def string : Compile Unit := do
  let t := (← get).token
  let index ← intern (·.internConstant (.string t.contents) t.span)
  emitWith .str [index]
  advance

/-- An argument of a call, or the end of its arguments. A comma must have an argument on either
side. -/
def argumentStep (sub : Sub) (ctx : Context) (state : Nat × Bool) :
    Compile ((Nat × Bool) ⊕ Nat) := do
  let (count, afterComma) := state
  if ← isAt (.symbol .rightParen) then
    if afterComma then unexpected else pure (.inr count)
  else
    sub (ctx.inner true) Ends.argument
    if ← isAt (.symbol .comma) then
      advance
      pure (.inl (count + 1, true))
    else if ← isAt (.symbol .rightParen) then pure (.inl (count + 1, false))
    else unexpected

/-- The arguments of a call, from behind the opening parenthesis to the closing one; their
number. -/
def callArguments (sub : Sub) (ctx : Context) : Compile Nat :=
  perToken (argumentStep sub ctx) (0, false)

/-- A call of the function `t`, from the opening parenthesis on. -/
def call (sub : Sub) (ctx : Context) (t : Token) : Compile Unit := do
  advance
  let count ← callArguments sub ctx
  let id ← intern (·.internFunction t.text t.span)
  emitWith .call [count, id]
  advance

/-- A whole array `t[]`, from the closing bracket on. Only an argument can be one. -/
def wholeArray (ctx : Context) (t : Token) (index : Nat) : Compile Unit := do
  if ctx.wholeArray then
    advance
    if (← isAt (.symbol .comma)) || (← isAt (.symbol .rightParen)) then emitWith .array [index]
    else refuse .arrayReference t.span (some t.text)
  else refuse .arrayReference t.span (some t.text)

/-- What the name `t` stands for, by the kind of the token behind it. -/
def behindName (sub : Sub) (ctx : Context) (calls : Bool) (t : Token) :
    Token.Kind → Compile Bool
  | .symbol .leftBracket => do
    advance
    let index ← intern (·.internArray t.text t.span)
    if ← isAt (.symbol .rightBracket) then
      wholeArray ctx t index
      return false
    else
      sub (ctx.inner false) Ends.subscript
      expect (.symbol .rightBracket)
      emitWith .elem [index]
      return true
  | .symbol .leftParen =>
    if calls then do
      call sub ctx t
      return false
    else unexpected
  | _ => do
    let index ← intern (·.internVar t.text t.span)
    emitWith .var [index]
    return true

/-- An operand that starts with a name: a variable, an element of an array, a whole array, or a
call if `calls` allows one. The answer says whether it can be assigned to. -/
def named (sub : Sub) (ctx : Context) (calls : Bool) : Compile Bool := do
  let t := (← get).token
  advance
  behindName sub ctx calls t (← kind)

/-- Refuse a builtin `t` because of the number of its arguments. -/
def refuseArity {α : Type} (t : Token) : Compile α := refuse .builtinArity t.span (some t.text)

/-- An argument of a builtin. -/
def builtinStep (sub : Sub) (ctx : Context) (count : Nat) : Compile (Nat ⊕ Nat) := do
  sub ctx Ends.argument
  if ← isAt (.symbol .comma) then
    advance
    pure (.inl (count + 1))
  else pure (.inr (count + 1))

/-- The arguments of a builtin, from behind the opening parenthesis through the closing one; their
number. -/
def builtinArguments (sub : Sub) (ctx : Context) : Compile Nat := do
  let count ←
    if ← isAt (.symbol .rightParen) then pure 0 else perToken (builtinStep sub ctx) 0
  expect (.symbol .rightParen)
  return count

/-- A builtin of one argument. -/
def unary (sub : Sub) (ctx : Context) (f : Unary) : Compile Unit := do
  let t := (← get).token
  advance
  expect (.symbol .leftParen)
  let count ← builtinArguments sub (ctx.inner f.takesArray)
  if count = 1 then emit f.opcode else refuseArity t

/-- A builtin without arguments. -/
def query (f : Query) : Compile Unit := do
  let t := (← get).token
  advance
  expect (.symbol .leftParen)
  if ← isAt (.symbol .rightParen) then
    advance
    emit (.query f)
  else refuseArity t

/-- The setting `scale` or, before a parenthesis, the builtin of that name. The answer says whether
the operand can be assigned to. -/
def scale (sub : Sub) (ctx : Context) : Compile Bool := do
  let t := (← get).token
  advance
  if ← isAt (.symbol .leftParen) then
    advance
    let count ← builtinArguments sub (ctx.inner false)
    if count = 1 then
      emit .scaleOf
      return false
    else refuseArity t
  else
    emit (.setting .scale)
    return true

/-- The array `name[]` that receives a remainder; its index. -/
def remainderArray : Compile Nat := do
  let t := (← get).token
  if t.kind = .name then
    advance
    if ← isAt (.symbol .leftBracket) then
      advance
      if ← isAt (.symbol .rightBracket) then
        advance
        intern (·.internArray t.text t.span)
      else refuse .arrayReference t.span (some t.text)
    else refuse .arrayReference t.span (some t.text)
  else refuse .arrayReference t.span

/-- An argument of the builtin `t` and the comma behind it. -/
def argumentAndComma (sub : Sub) (ctx : Context) (t : Token) : Compile Unit := do
  sub (ctx.inner false) Ends.argument
  if ← isAt (.symbol .comma) then advance else refuseArity t

/-- A builtin of three arguments. `divmod` leaves the quotient and stores the remainder in the
first element of its array. -/
def ternary (sub : Sub) (ctx : Context) (f : Ternary) : Compile Unit := do
  let t := (← get).token
  advance
  expect (.symbol .leftParen)
  argumentAndComma sub ctx t
  argumentAndComma sub ctx t
  match f with
  | .divmod =>
    let index ← remainderArray
    if ← isAt (.symbol .rightParen) then
      emit .divmod
      emit .zero
      emitWith .elem [index]
      emit .swap
      emit (.store none)
    else refuseArity t
  | .modexp =>
    sub (ctx.inner false) Ends.argument
    if ← isAt (.symbol .rightParen) then emit .modexp else refuseArity t
  advance

/-- An operand. The answer says whether it can be assigned to. -/
def operand (sub : Sub) (ctx : Context) : Compile Bool := do
  match ← kind with
  | .number =>
    number
    return false
  | .string =>
    string
    return false
  | .name => named sub ctx true
  | .keyword (.setting .scale) => scale sub ctx
  | .keyword (.setting s) =>
    emit (.setting s)
    advance
    return true
  | .keyword (.unary f) =>
    unary sub ctx f
    return false
  | .keyword (.query f) =>
    if f = .read ∧ ctx.answer = true then refuseHere .recursiveRead
    else
      query f
      return false
  | .keyword (.ternary f) =>
    ternary sub ctx f
    return false
  | _ => unexpected

end Compile

end DeskCalc
