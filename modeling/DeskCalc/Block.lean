/-!
# Open blocks

A statement such as `while` opens a body that later statements, or later chunks of source, fill
and close. One `Block` says what opened a body and what it still waits for. The blocks that are
open form a `BlockStack`, whose bottom entry stands for the source outside all bodies and never
goes away.
-/

namespace DeskCalc

/-- What opened a body, and what is known of its state. -/
structure Block where
  /-- The body has an opening brace and ends with its closing one. -/
  brace : Bool := false
  /-- The body of a function itself. -/
  funcBody : Bool := false
  /-- Somewhere inside a function. -/
  inFunc : Bool := false
  /-- The body has not begun: a statement or an opening brace must follow. -/
  awaited : Bool := false
  /-- Somewhere inside a loop. -/
  inLoop : Bool := false
  /-- The body of a loop itself. -/
  loopBody : Bool := false
  /-- The body of an `if`. -/
  ifBody : Bool := false
  /-- The body of an `else`. -/
  elseBody : Bool := false
  /-- The body of an `if` has just ended in this block, and an `else` may follow. -/
  ifEnded : Bool := false
deriving DecidableEq, Repr

namespace Block

/-- The marks of a block in the order of their bits. -/
def marks (b : Block) : List Bool :=
  [b.brace, b.funcBody, b.inFunc, b.awaited, b.inLoop, b.loopBody, b.ifBody, b.elseBody, b.ifEnded]

/-- A block as a number: one bit a mark, the lowest first. -/
def toBits (b : Block) : Nat := b.marks.foldr (fun mark n => mark.toNat + 2 * n) 0

/-- The block whose marks are the bits of a number; higher bits mean nothing. -/
def ofBits (n : Nat) : Block where
  brace := n.testBit 0
  funcBody := n.testBit 1
  inFunc := n.testBit 2
  awaited := n.testBit 3
  inLoop := n.testBit 4
  loopBody := n.testBit 5
  ifBody := n.testBit 6
  elseBody := n.testBit 7
  ifEnded := n.testBit 8

/-- A block can be read back from its number. -/
theorem ofBits_toBits (b : Block) : ofBits b.toBits = b := by
  rcases b with ⟨_ | _, _ | _, _ | _, _ | _, _ | _, _ | _, _ | _, _ | _, _ | _⟩ <;> rfl

/-- Combine two blocks mark by mark. -/
def zipWith (f : Bool → Bool → Bool) (a b : Block) : Block where
  brace := f a.brace b.brace
  funcBody := f a.funcBody b.funcBody
  inFunc := f a.inFunc b.inFunc
  awaited := f a.awaited b.awaited
  inLoop := f a.inLoop b.inLoop
  loopBody := f a.loopBody b.loopBody
  ifBody := f a.ifBody b.ifBody
  elseBody := f a.elseBody b.elseBody
  ifEnded := f a.ifEnded b.ifEnded

/-- The marks of either. -/
def union (a b : Block) : Block := zipWith (· || ·) a b

/-- The marks of `a` that `b` does not have. -/
def diff (a b : Block) : Block := zipWith (fun x y => x && !y) a b

/-- Some mark is in both. -/
def meets (a b : Block) : Bool := (zipWith (· && ·) a b).marks.any id

/-- No mark is set. -/
def isEmpty (b : Block) : Bool := b == {}

/-- The block of a body that begins with the next statement, opened inside `outer`. -/
def bodyIn (b outer : Block) : Block :=
  { b with
    awaited := true
    inFunc := b.inFunc || outer.inFunc
    inLoop := b.inLoop || outer.inLoop }

/-- The block of a brace that is no body, opened inside `outer`. -/
def braceIn (outer : Block) : Block :=
  { brace := true, inFunc := outer.inFunc, inLoop := outer.inLoop }

end Block

/-- The open blocks, the innermost first. There is always one. -/
structure BlockStack where
  top : Block := {}
  below : List Block := []
deriving DecidableEq, Repr

namespace BlockStack

/-- The open blocks from the innermost to the outermost. -/
def toList (s : BlockStack) : List Block := s.top :: s.below

/-- The number of entries. -/
def depth (s : BlockStack) : Nat := s.below.length + 1

/-- Open a block. -/
def push (s : BlockStack) (b : Block) : BlockStack := ⟨b, s.top :: s.below⟩

/-- Close the innermost block; the outermost one stays. -/
def pop (s : BlockStack) : BlockStack :=
  match s.below with
  | [] => s
  | b :: below => ⟨b, below⟩

/-- Change the innermost block. -/
def modifyTop (s : BlockStack) (f : Block → Block) : BlockStack := ⟨f s.top, s.below⟩

@[simp] theorem length_toList (s : BlockStack) : s.toList.length = s.depth := rfl

@[simp] theorem toList_push (s : BlockStack) (b : Block) : (s.push b).toList = b :: s.toList := rfl

@[simp] theorem depth_push (s : BlockStack) (b : Block) : (s.push b).depth = s.depth + 1 := rfl

/-- Closing never closes the outermost block. -/
theorem depth_pop (s : BlockStack) : s.pop.depth = max 1 (s.depth - 1) := by
  rcases s with ⟨top, _ | ⟨b, below⟩⟩
  · rfl
  · simp [pop, depth]

@[simp] theorem toList_modifyTop (s : BlockStack) (f : Block → Block) :
    (s.modifyTop f).toList = f s.top :: s.below := rfl

@[simp] theorem depth_modifyTop (s : BlockStack) (f : Block → Block) :
    (s.modifyTop f).depth = s.depth := rfl

/-- Nothing is open but the outermost block. -/
def isTopLevel (s : BlockStack) : Bool := s.below.isEmpty

/-- Nothing is open, and no `else` is waited for. -/
def isIdle (s : BlockStack) : Bool := s.isTopLevel && s.top.isEmpty

/-- Some open block has a brace. -/
def hasBrace (s : BlockStack) : Bool := s.toList.any (·.brace)

/-- An `else` would belong to the body of an `if` that ends right before it, where `blocks` are
the open blocks, the innermost first. The bodies of loops and of `else` end together with the
statement that ends them, so the search looks through them; a brace that is still open stops
it. -/
def elseBinds (afterBrace : Bool) : List Block → Bool
  | [] => false
  | b :: blocks =>
    if b.brace && !afterBrace then false
    else if b.elseBody || b.loopBody then elseBinds afterBrace blocks
    else b.ifBody

end BlockStack

end DeskCalc
