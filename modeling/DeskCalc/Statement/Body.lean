import DeskCalc.Pass

/-!
# Opening and closing bodies

A body ends at its closing brace or, without one, right after its only statement. The end of one
body can be the end of several: the last statement of `while (a) while (b) x` ends both loops. The
end of the body of an `if` leaves a mark on the block around it, so that an `else` on a later line
still finds its `if`.
-/

namespace DeskCalc

namespace Compile

/-- Open a body that begins with the next statement. -/
def openBody (b : Block) : Compile Unit :=
  modifyBlocks fun s => s.push (b.bodyIn s.top)

/-- Open a brace that is the body of nothing. -/
def openBrace : Compile Unit :=
  modifyBlocks fun s => s.push (Block.braceIn s.top)

/-- Close the innermost block. -/
def closeBlock : Compile Unit := modifyBlocks BlockStack.pop

/-- The `if` that has just ended has no `else`: its label lies here. -/
def endIf : Compile Unit := do
  modifyBlocks fun s => s.modifyTop ({ · with ifEnded := false })
  resolveExit

/-- The word `else` behind the body of an `if`. The code before it jumps over the new body, which is
where the label of the `if` lies. -/
def elseBranch : Compile Unit := do
  if (← topBlock).ifEnded then
    let label ← nextLabel
    emitJump label
    endIf
    let _ ← openExit false
    openBody { elseBody := true }
    advance
  else refuseHere .elseWithoutIf

/-- Close the innermost body, unless it is the body of an `if`: a loop jumps back to where it
continues, and a function returns. A brace that is no body is closed when `braced`. -/
def closeInnermost (braced : Bool) : Compile Unit := do
  let top ← topBlock
  if top.loopBody || top.elseBody then
    if top.loopBody then
      let p ← get
      match p.continues with
      | [] => pure ()
      | label :: continues =>
        set { p with continues := continues }
        emitJump label
    else pure ()
    resolveExit
    closeBlock
  else if top.funcBody then
    emit (if (← function).isVoid then .retVoid else .ret0)
    modify fun p => { p with target := Program.mainId }
    closeBlock
  else if braced && !top.ifBody then closeBlock
  else pure ()

/-- Look for the `else` of an `if` whose body is closed; whether one was there. Without `else` the
label of the `if` lies here if an outer brace closes as well, `outer`. -/
def lookForElse (outer : Bool) : Compile Bool := do
  if ← isAt (.keyword .elseBranch) then
    elseBranch
    return true
  else if outer then
    endIf
    return false
  else return false

/-- Close the body of an `if` at a token that is no line feed. POSIX has no `else`. -/
def closeIfHere (outer : Bool) : Compile Bool := do
  closeBlock
  if (← get).strictness = .strict then
    endIf
    return false
  else
    modifyBlocks fun s => s.modifyTop ({ · with ifEnded := true })
    lookForElse outer

/-- Close the body of an `if` and look for its `else`; whether one was there. -/
def closeIf (outer : Bool) : Compile Bool := do
  skipNewlines
  closeIfHere outer

/-- The state of `closeBodies`. -/
structure Closing where
  /-- A closing brace was read, and no block has taken it yet. -/
  brace : Bool
  /-- The innermost block has a brace. -/
  braced : Bool

/-- Tell whether the body around one that has been closed ends as well. -/
def closeNext (brace foundElse : Bool) : Compile (Closing ⊕ Bool) := do
  let blocks := (← get).blocks
  if blocks.depth > 1 && !foundElse && (!blocks.top.ifEnded || brace) &&
      (!blocks.top.brace || brace) then
    return .inl ⟨brace, blocks.top.brace⟩
  else return .inr brace

/-- Close the body of an `if` around a body that has been closed, where `depth` blocks were open. -/
def closeAround (c : Closing) (depth : Nat) : Compile (Closing ⊕ Bool) := do
  let blocks := (← get).blocks
  let foundElse ←
    if blocks.top.ifBody && (depth == blocks.depth || !blocks.top.brace) then
      closeIf (c.brace && !c.braced)
    else pure false
  closeNext (c.brace && !c.braced) foundElse

/-- Close one body, and tell whether the next one around it ends as well. -/
def closeOne (c : Closing) : Compile (Closing ⊕ Bool) := do
  if c.braced && !c.brace then unexpected
  else
    let depth := (← get).blocks.depth
    closeInnermost c.braced
    closeAround c depth

/-- Close the innermost body and every body around it that ends with it; whether a closing brace
is left over. -/
def closeBodies (brace : Bool) : Compile Bool := do
  let blocks := (← get).blocks
  iterate closeOne blocks.toList ⟨brace, blocks.top.brace⟩

/-- The closing brace of a body. A delimiter must follow it, except behind the body of a
function. -/
def closingBrace : Compile Unit := do
  if ← isAt (.symbol .rightBrace) then
    advance
    let blocks := (← get).blocks
    let functionEnds :=
      blocks.depth == 2 && blocks.top == { brace := true, funcBody := true, inFunc := true }
    if (← atDelimiter) || functionEnds then pure () else unexpected
  else throw (.fault .noBrace)

/-- Close bodies behind the closing brace, if there is one. -/
def closeBehind (brace : Bool) : Compile Unit := do
  let unused ← closeBodies brace
  if (← get).blocks.isTopLevel && unused then unexpected else pure ()

/-- End the innermost body, and every body around it that ends with it. With `brace` the current
token is its closing brace. -/
def endBody (brace : Bool) : Compile Unit := do
  if (← get).blocks.depth ≤ 1 then unexpected
  else
    if brace then closingBrace else pure ()
    closeBehind brace

/-- Close a body for `closeAll`, where `depth` blocks are open. -/
def closeAllBody (depth : Nat) : Compile (Unit ⊕ Bool) := do
  if depth > 1 then
    endBody false
    if (← get).blocks.depth ≥ depth then pure (.inr false) else pure (.inl ())
  else pure (.inl ())

/-- Close what is innermost, or stop where nothing more can be closed. -/
def closeAllStep (_ : Unit) : Compile (Unit ⊕ Bool) := do
  let blocks := (← get).blocks
  if blocks.depth > 1 || blocks.top.ifEnded then
    if blocks.top.ifEnded then endIf else pure ()
    closeAllBody blocks.depth
  else return .inr blocks.isIdle

/-- Close everything that the end of the input closes: an `if` that may still get its `else`, and
bodies without braces. The answer is `false` if something stays open. -/
def closeAll : Compile Bool := do
  let blocks := (← get).blocks
  if blocks.isIdle then return true
  else if blocks.hasBrace then return false
  else iterate closeAllStep blocks.toList ()

end Compile

end DeskCalc
