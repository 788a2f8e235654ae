import DeskCalc.Proofs.Compiles

/-!
# Statements as trees, and the layout of their code

A `Stmt` is a statement as a tree, together with the way it is written: a body may have braces, it
stands behind its header or on the lines below, and there may be blank lines. `Stmt.words` are its
words. Which trees can be written this way is `Stmt.wellFormed`: a statement that jumps stands
inside what it leaves, and a body without braces neither takes the `else` that belongs to another
`if` (`Stmt.takesElse`) nor begins with a step right behind the parenthesis of its header
(`Body.leadsWithStep`). Functions that return nothing, and `return ()`, are not among these
statements.

`Stmt.layout` is the code of a statement. A jump names the position it leads to, that is, how many
instructions stand before it, and this is known beforehand because the number of instructions of a
statement, `Stmt.size`, does not depend on where it stands.
-/

namespace DeskCalc

/-- Line feeds. -/
def lines (n : Nat) : List Word := List.replicate n (.newline, "")

@[simp] theorem lines_zero : lines 0 = [] := rfl

@[simp] theorem lines_succ (n : Nat) : lines (n + 1) = (.newline, "") :: lines n := rfl

/-- Line feeds before the same word are at least as many. -/
theorem exists_lines_of_append {i j : Nat} {w : Word} {us ws : List Word} (hw : w.1 ≠ .newline)
    (h : lines i ++ w :: ws = lines j ++ us) : ∃ d, i = j + d ∧ us = lines d ++ w :: ws := by
  induction j generalizing i with
  | zero => exact ⟨i, (Nat.zero_add i).symm, h.symm⟩
  | succ j ih =>
    cases i with
    | zero =>
      rw [lines_zero, List.nil_append, lines_succ, List.cons_append, List.cons.injEq] at h
      exact absurd (congrArg Prod.fst h.1) hw
    | succ i =>
      obtain ⟨d, rfl, hus⟩ := ih (List.cons.inj h).2
      exact ⟨d, by omega, hus⟩

/-- The first word is a string. -/
def Expr.startsWithString (e : Expr) : Bool := (e.words.head?.map (·.1)) == some .string

/-- An item of a `print`. -/
inductive PrintItem
  /-- A string with its quotes. -/
  | text (text : String)
  | value (e : Expr)

/-- A statement without a body. -/
inductive Simple
  | value (e : Expr)
  /-- A string with its quotes, which is printed. -/
  | text (text : String)
  | print (items : List PrintItem)
  | halt
  | breakLoop
  | continueLoop
  | returnValue (e : Option Expr)

mutual

/-- A statement, and how it is written. The numbers count blank lines. -/
inductive Stmt
  | simple (s : Simple) (behind : Nat)
  | block (inside : Nat) (ss : List Stmt) (behind : Nat)
  | ifThen (c : Expr) (body : Body)
  | ifElse (c : Expr) (body other : Body)
  | whileLoop (c : Expr) (body : Body)
  | forLoop (first test next : Option Expr) (body : Body)

/-- What stands behind a header. -/
inductive Body
  | braced (before inside : Nat) (ss : List Stmt) (behind : Nat)
  | bare (before : Nat) (s : Stmt)

end

/-! ## How statements are written -/

namespace PrintItem

/-- The words of an item. -/
def words : PrintItem → List Word
  | text t => [(.string, t)]
  | value e => e.words

/-- The words of some items with commas between them. -/
def wordsOfAll : List PrintItem → List Word
  | [] => []
  | [item] => item.words
  | item :: items => item.words ++ Symbol.word .comma :: wordsOfAll items

/-- The item is a string or an expression that starts with something else. -/
def wellFormed : PrintItem → Bool
  | text _ => true
  | value e => e.wellFormed false && !e.startsWithString

end PrintItem

namespace Simple

/-- The words of a statement up to the end of its line. -/
def words : Simple → List Word
  | value e => e.words
  | text t => [(.string, t)]
  | print items => Keyword.word .print :: PrintItem.wordsOfAll items
  | halt => [Keyword.word .halt]
  | breakLoop => [Keyword.word .breakLoop]
  | continueLoop => [Keyword.word .continueLoop]
  | returnValue none => [Keyword.word .returnValue]
  | returnValue (some e) => Keyword.word .returnValue :: e.words

/-- The statement can stand here, where there is a loop or a function around it. -/
def wellFormed (inLoop inFunc : Bool) : Simple → Bool
  | value e => e.wellFormed false && !e.startsWithString
  | text _ | halt => true
  | print items => !items.isEmpty && items.all (·.wellFormed)
  | breakLoop | continueLoop => inLoop
  | returnValue e => inFunc && e.all (·.wellFormed false)

end Simple

/-- The words of an expression that may be missing. -/
def clauseWords (e : Option Expr) : List Word := (e.map (·.words)).getD []

mutual

/-- The words of a statement, which ends with its line. -/
def Stmt.words : Stmt → List Word
  | .simple s behind => s.words ++ lines (behind + 1)
  | .block inside ss behind =>
    Symbol.word .leftBrace :: lines inside ++ Stmt.wordsOfAll ss ++
      Symbol.word .rightBrace :: lines (behind + 1)
  | .ifThen c body =>
    Keyword.word .ifBranch :: Symbol.word .leftParen :: c.words ++
      Symbol.word .rightParen :: body.words 1
  | .ifElse c body other =>
    Keyword.word .ifBranch :: Symbol.word .leftParen :: c.words ++
      Symbol.word .rightParen :: body.words 0 ++ Keyword.word .elseBranch :: other.words 1
  | .whileLoop c body =>
    Keyword.word .whileLoop :: Symbol.word .leftParen :: c.words ++
      Symbol.word .rightParen :: body.words 1
  | .forLoop first test next body =>
    Keyword.word .forLoop :: Symbol.word .leftParen :: clauseWords first ++
      Symbol.word .semicolon :: clauseWords test ++ Symbol.word .semicolon :: clauseWords next ++
      Symbol.word .rightParen :: body.words 1

/-- The words of a body. Behind a closing brace there are at least `least` line feeds. -/
def Body.words (least : Nat) : Body → List Word
  | .braced before inside ss behind =>
    lines before ++ Symbol.word .leftBrace :: lines inside ++ Stmt.wordsOfAll ss ++
      Symbol.word .rightBrace :: lines (behind + least)
  | .bare before s => lines before ++ s.words

/-- The words of some statements. -/
def Stmt.wordsOfAll : List Stmt → List Word
  | [] => []
  | s :: ss => s.words ++ Stmt.wordsOfAll ss

end

mutual

/-- An `else` right behind the statement would belong to an `if` in it. -/
def Stmt.takesElse : Stmt → Bool
  | .simple _ _ | .block _ _ _ => false
  | .ifThen _ _ => true
  | .ifElse _ _ body | .whileLoop _ body | .forLoop _ _ _ body => body.takesElse

/-- An `else` right behind the body would belong to an `if` in it. -/
def Body.takesElse : Body → Bool
  | .braced _ _ _ _ => false
  | .bare _ s => s.takesElse

end

/-- The body begins with a step, on the line of its header. -/
def Body.leadsWithStep : Body → Bool
  | .bare 0 s => s.words.head?.any fun w => w.1 == .symbol .increment || w.1 == .symbol .decrement
  | _ => false

/-- The statement is a mere brace. -/
def Stmt.isBlock : Stmt → Bool
  | .block _ _ _ => true
  | _ => false

mutual

/-- The statement can stand here. -/
def Stmt.wellFormed (inLoop inFunc : Bool) : Stmt → Bool
  | .simple s _ => s.wellFormed inLoop inFunc
  | .block _ ss _ => Stmt.allWellFormed inLoop inFunc ss
  | .ifThen c body =>
    c.wellFormed false && (body.wellFormed inLoop inFunc && !body.leadsWithStep)
  | .ifElse c body other =>
    c.wellFormed false && (body.wellFormed inLoop inFunc && !body.leadsWithStep) &&
      !body.takesElse && other.wellFormed inLoop inFunc
  | .whileLoop c body => c.wellFormed false && (body.wellFormed true inFunc && !body.leadsWithStep)
  | .forLoop first test next body =>
    first.all (·.wellFormed false) && test.all (·.wellFormed false) &&
      next.all (·.wellFormed false) && (body.wellFormed true inFunc && !body.leadsWithStep)

/-- The body can stand here. A mere brace would be the brace of the body. -/
def Body.wellFormed (inLoop inFunc : Bool) : Body → Bool
  | .braced _ _ ss _ => Stmt.allWellFormed inLoop inFunc ss
  | .bare _ s => s.wellFormed inLoop inFunc && !s.isBlock

/-- All of the statements can stand here. -/
def Stmt.allWellFormed (inLoop inFunc : Bool) : List Stmt → Bool
  | [] => true
  | s :: ss => s.wellFormed inLoop inFunc && Stmt.allWellFormed inLoop inFunc ss

end

/-! ## Code -/

/-- An instruction that names its operands and, if it jumps, the position it jumps to. -/
inductive Placed
  | plain (s : Symbolic)
  | jump (target : Nat)
  | jumpZero (target : Nat)
deriving DecidableEq, Repr

/-- Where the loop around a statement continues and where it ends. -/
structure Targets where
  next : Nat := 0
  exit : Nat := 0

/-- Code that does not jump. -/
def placed (code : List Symbolic) : List Placed := code.map .plain

@[simp] theorem length_placed (code : List Symbolic) : (placed code).length = code.length := by
  simp [placed]

/-- The code of a string. -/
def textCode (text : String) : List Symbolic := (Expr.string text).postorder

/-- The code of an item of a `print`. -/
def PrintItem.code : PrintItem → List Symbolic
  | text t => textCode t ++ [.plain .printPop]
  | value e => e.postorder ++ [.plain .printPop]

/-- The code of a statement without a body. -/
def Simple.layout (loop : Targets) : Simple → List Placed
  | value e => placed (e.settled { printed := true })
  | text t => placed (textCode t ++ [.plain .printStr])
  | print items => placed (items.flatMap (·.code))
  | halt => placed [.plain .halt]
  | breakLoop => [.jump loop.exit]
  | continueLoop => [.jump loop.next]
  | returnValue none => placed [.plain .ret0]
  | returnValue (some e) => placed (e.postorder ++ [.plain .ret])

/-- The code of the first or the last clause of a `for`. -/
def clauseCode (e : Option Expr) : List Symbolic := (e.map (·.settled {})).getD []

/-- The code of the condition of a `for`. Without one the loop goes on for ever. -/
def testCode (e : Option Expr) : List Symbolic := (e.map (·.postorder)).getD [.plain .one]

mutual

/-- The number of instructions of a statement. -/
def Stmt.size : Stmt → Nat
  | .simple s _ => (s.layout {}).length
  | .block _ ss _ => Stmt.sizeOfAll ss
  | .ifThen c body => c.postorder.length + 1 + body.size
  | .ifElse c body other => c.postorder.length + 1 + body.size + 1 + other.size
  | .whileLoop c body => c.postorder.length + 1 + body.size + 1
  | .forLoop first test next body =>
    (clauseCode first).length + (testCode test).length + 2 + (clauseCode next).length + 1 +
      body.size + 1

/-- The number of instructions of a body. -/
def Body.size : Body → Nat
  | .braced _ _ ss _ => Stmt.sizeOfAll ss
  | .bare _ s => s.size

/-- The number of instructions of some statements. -/
def Stmt.sizeOfAll : List Stmt → Nat
  | [] => 0
  | s :: ss => s.size + Stmt.sizeOfAll ss

end

mutual

/-- The code of a statement that starts at a position. -/
def Stmt.layout (start : Nat) (loop : Targets) : Stmt → List Placed
  | .simple s _ => s.layout loop
  | .block _ ss _ => Stmt.layoutOfAll start loop ss
  | .ifThen c body =>
    let inside := start + c.postorder.length + 1
    placed c.postorder ++ .jumpZero (inside + body.size) :: body.layout inside loop
  | .ifElse c body other =>
    let inside := start + c.postorder.length + 1
    let elsewhere := inside + body.size + 1
    placed c.postorder ++ .jumpZero elsewhere :: body.layout inside loop ++
      .jump (elsewhere + other.size) :: other.layout elsewhere loop
  | .whileLoop c body =>
    let inside := start + c.postorder.length + 1
    let exit := inside + body.size + 1
    placed c.postorder ++ .jumpZero exit :: body.layout inside ⟨start, exit⟩ ++ [.jump start]
  | .forLoop first test next body =>
    let start := start + (clauseCode first).length
    let update := start + (testCode test).length + 2
    let inside := update + (clauseCode next).length + 1
    let exit := inside + body.size + 1
    placed (clauseCode first) ++ placed (testCode test) ++ .jumpZero exit :: .jump inside ::
      placed (clauseCode next) ++ .jump start :: body.layout inside ⟨update, exit⟩ ++
      [.jump update]

/-- The code of a body that starts at a position. -/
def Body.layout (start : Nat) (loop : Targets) : Body → List Placed
  | .braced _ _ ss _ => Stmt.layoutOfAll start loop ss
  | .bare _ s => s.layout start loop

/-- The code of some statements, the first of which starts at a position. -/
def Stmt.layoutOfAll (start : Nat) (loop : Targets) : List Stmt → List Placed
  | [] => []
  | s :: ss => s.layout start loop ++ Stmt.layoutOfAll (start + s.size) loop ss

end

mutual

/-- The positions of the labels of a statement that starts at a position, in the order in which they
are made. -/
def Stmt.positions (start : Nat) : Stmt → List Nat
  | .simple _ _ => []
  | .block _ ss _ => Stmt.positionsOfAll start ss
  | .ifThen c body =>
    let inside := start + c.postorder.length + 1
    (inside + body.size) :: body.positions inside
  | .ifElse c body other =>
    let inside := start + c.postorder.length + 1
    let elsewhere := inside + body.size + 1
    elsewhere :: body.positions inside ++ (elsewhere + other.size) :: other.positions elsewhere
  | .whileLoop c body =>
    let inside := start + c.postorder.length + 1
    start :: (inside + body.size + 1) :: body.positions inside
  | .forLoop first test next body =>
    let start := start + (clauseCode first).length
    let update := start + (testCode test).length + 2
    let inside := update + (clauseCode next).length + 1
    start :: update :: inside :: (inside + body.size + 1) :: body.positions inside

/-- The positions of the labels of a body that starts at a position. -/
def Body.positions (start : Nat) : Body → List Nat
  | .braced _ _ ss _ => Stmt.positionsOfAll start ss
  | .bare _ s => s.positions start

/-- The positions of the labels of some statements, the first of which starts at a position. -/
def Stmt.positionsOfAll (start : Nat) : List Stmt → List Nat
  | [] => []
  | s :: ss => s.positions start ++ Stmt.positionsOfAll (start + s.size) ss

end

theorem Simple.length_layout (loop loop' : Targets) (s : Simple) :
    (s.layout loop).length = (s.layout loop').length := by
  cases s with
  | returnValue e => cases e <;> rfl
  | _ => rfl

mutual

/-- **The size of a statement is that of its code.** -/
theorem Stmt.length_layout (start : Nat) (loop : Targets) :
    (s : Stmt) → (s.layout start loop).length = s.size
  | .simple s _ => by
    simp only [Stmt.layout, Stmt.size]
    exact s.length_layout loop {}
  | .block _ ss _ => by simp only [Stmt.layout, Stmt.size, Stmt.length_layoutOfAll start loop ss]
  | .ifThen c body => by
    simp only [Stmt.layout, Stmt.size, List.length_append, List.length_cons, length_placed,
      Body.length_layout _ _ body]
    omega
  | .ifElse c body other => by
    simp only [Stmt.layout, Stmt.size, List.length_append, List.length_cons, length_placed,
      Body.length_layout _ _ body, Body.length_layout _ _ other]
    omega
  | .whileLoop c body => by
    simp only [Stmt.layout, Stmt.size, List.length_append, List.length_cons, length_placed,
      Body.length_layout _ _ body, List.length_nil]
    omega
  | .forLoop first test next body => by
    simp only [Stmt.layout, Stmt.size, List.length_append, List.length_cons, length_placed,
      Body.length_layout _ _ body, List.length_nil]
    omega

theorem Body.length_layout (start : Nat) (loop : Targets) :
    (b : Body) → (b.layout start loop).length = b.size
  | .braced _ _ ss _ => by
    simp only [Body.layout, Body.size, Stmt.length_layoutOfAll start loop ss]
  | .bare _ s => by simp only [Body.layout, Body.size, Stmt.length_layout start loop s]

theorem Stmt.length_layoutOfAll (start : Nat) (loop : Targets) :
    (ss : List Stmt) → (Stmt.layoutOfAll start loop ss).length = Stmt.sizeOfAll ss
  | [] => rfl
  | s :: ss => by
    simp only [Stmt.layoutOfAll, Stmt.sizeOfAll, List.length_append, Stmt.length_layout _ _ s,
      Stmt.length_layoutOfAll _ _ ss]

end

/-! ## Code in a program -/

/-- The offset of a position among some instructions. -/
def Code.offsetOf (is : List Command) (position : Nat) : Nat :=
  (encodeAll (is.take position)).length

/-- In the program `P` the instruction `i` is the placed one, where `leads l t` says that the label
`l` leads to the position `t`. -/
def Program.Places (P : Program) (leads : Nat → Nat → Prop) : Placed → Command → Prop
  | .plain s, i => P.Denotes s i
  | .jump t, i => ∃ l, i = (.jump, [l]) ∧ leads l t
  | .jumpZero t, i => ∃ l, i = (.jumpZero, [l]) ∧ leads l t

/-- Labels and indices may get a meaning but never another one. -/
theorem Program.Places.mono {P Q : Program} {leads leads' : Nat → Nat → Prop} (h : P.Grows Q)
    (hleads : ∀ l t, leads l t → leads' l t) {x : Placed} {i : Command}
    (hx : P.Places leads x i) : Q.Places leads' x i := by
  cases x with
  | plain s => exact Denotes.mono h hx
  | jump t | jumpZero t =>
    obtain ⟨l, hi, hl⟩ := hx
    exact ⟨l, hi, hleads l t hl⟩

end DeskCalc
