import DeskCalc.Statement.Control
import DeskCalc.Statement.Define

/-!
# Statements

A statement is compiled as it is read. Everything that spans several statements is on the stack of
open blocks: a header opens a block, and the statement that ends its body closes it, maybe in a
later chunk.
-/

namespace DeskCalc

namespace Compile

/-- The part of a statement before its delimiter. -/
def statementHead (k : Token.Kind) : Compile Unit := do
  if k.startsExpression then expression { printed := true } Ends.statement
  else
    match k with
    | .string =>
      string
      emit .printStr
    | .symbol .rightBrace => endBody true
    | .keyword .elseBranch => elseBranch
    | .keyword .breakLoop => breakLoop
    | .keyword .continueLoop => continueLoop
    | .keyword .forLoop => forHeader
    | .keyword .halt =>
      emit .halt
      advance
    | .keyword .ifBranch => ifHeader
    | .keyword .print => printItems .printPop
    | .keyword .stream => printItems .printStream
    | .keyword .returnValue => returnValue
    | .keyword .whileLoop => whileHeader
    | _ => unexpected

/-- The delimiter of a statement, with the empty statements and line feeds behind it. POSIX does
not allow a definition behind a semicolon. -/
def statementTail : Compile Unit := do
  skipWhile fun k => k == .symbol .semicolon || k == .newline
  if (← get).previous = .symbol .semicolon ∧ (← kind) = .keyword .define then
    report .defineAfterSemicolon (← here)
  else pure ()

/-- The end of a statement that began with the open blocks `blocks`. If they are as they were, a
delimiter must follow. -/
def plainEnd (blocks : BlockStack) : Compile Unit := do
  let now := (← get).blocks
  if blocks.depth == now.depth && blocks.top == now.top && !(← atDelimiter) then unexpected
  else statementTail

/-- A statement that begins with a token of the kind `k` and is not the start of a body. -/
def plainFrom (k : Token.Kind) : Compile Unit :=
  match k with
  | .symbol .semicolon => skipWhile (· == .symbol .semicolon)
  | .keyword .quit => modify fun p => { p with quitting := true }
  | k => do
    let blocks := (← get).blocks
    statementHead k
    plainEnd blocks

/-- A statement that is not the start of a body. -/
def plainStatement : Compile Unit := do plainFrom (← kind)

/-- The `if` that has just ended gets no `else`. With it ends the body around it, unless that has
a brace. -/
def settleIf : Compile Unit := do
  endIf
  let blocks := (← get).blocks
  if blocks.depth > 1 && !blocks.top.brace then endBody false else pure ()

/-- From here on `auto` is too late. -/
def forbidAuto : Compile Unit := modify fun p => { p with autoAllowed := false }

/-- A statement that begins with a token of the kind `k`, where no body is awaited. -/
def innerFrom (k : Token.Kind) : Compile Unit :=
  match k with
  | .newline => advance
  | .keyword .autoDecl => autoDecl
  | .keyword .elseBranch => do
    forbidAuto
    plainStatement
  | k => do
    forbidAuto
    if (← topBlock).ifEnded then settleIf
    else if k = .symbol .leftBrace then
      openBrace
      advance
    else plainStatement

/-- A statement where no body is awaited. -/
def innerStatement : Compile Unit := do innerFrom (← kind)

/-- The beginning of the body of a function, where `auto` may stand. -/
def functionStart : Compile Unit := do
  modify fun p => { p with autoAllowed := true }
  if ← isAt (.keyword .autoDecl) then autoDecl else pure ()
  if ← isAt .newline then advance else pure ()

/-- The end of the first statement of a body, before which `depth` blocks were open. -/
def bodyEnd (brace : Bool) (depth : Nat) : Compile Unit := do
  let p ← get
  if !p.quitting && !brace && !p.blocks.top.awaited && depth ≤ p.blocks.depth then endBody false
  else pure ()

/-- The body that the innermost block awaits, or its first statement if it has a brace. The body of
a function must have one. -/
def body (brace : Bool) : Compile Unit := do
  modifyBlocks fun s => s.modifyTop ({ · with awaited := false })
  if (← topBlock).funcBody then
    if brace then functionStart else unexpected
  else
    let depth := (← get).blocks.depth
    innerStatement
    bodyEnd brace depth

/-- A statement at a token of the kind `k`, where `top` is the innermost block. Where a body is
awaited the statement is its beginning. -/
def statementFrom (k : Token.Kind) (top : Block) : Compile Unit :=
  if k = .newline ∨ k = .keyword .autoDecl ∨ k = .keyword .elseBranch ∨ top.ifEnded = true then
    innerStatement
  else if top.awaited && k == .symbol .leftBrace then do
    forbidAuto
    modifyBlocks fun s => s.modifyTop ({ · with brace := true })
    advance
    body true
  else if top.awaited && !top.brace then do
    forbidAuto
    body false
  else innerStatement

/-- A statement. -/
def statement : Compile Unit := do statementFrom (← kind) (← topBlock)

/-- A function definition or a statement. A definition needs everything closed, except that it ends
an `if` that waits for its `else`. -/
def item : Compile Unit := do
  if ← isAt (.keyword .define) then
    if (← get).blocks.isIdle then define
    else if ← closeAll then define
    else refuseHere .nestedFunction
  else statement

end Compile

end DeskCalc
