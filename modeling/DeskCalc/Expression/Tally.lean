import DeskCalc.Code
import DeskCalc.Operator

/-!
# What is known of an expression while it is compiled

Operands are compiled as they are read, and operators wait on a stack until they can apply. The
`Tally` of an expression counts the values its code leaves so far and remembers what was read
last, which tells operands from operators and says what can be assigned to.
-/

namespace DeskCalc

/-- What the place of an expression allows and wants. -/
structure Context where
  /-- The expression is a condition: POSIX allows one comparison here and nowhere else. -/
  condition : Bool := false
  /-- The expression is a statement: its value is printed unless it assigns. -/
  printed : Bool := false
  /-- The expression belongs to the answer to a `read()`, so that it cannot read again, and a line
  feed before it is no blank. -/
  answer : Bool := false
  /-- The expression may be a whole array `name[]`. -/
  wholeArray : Bool := false
  /-- The value stays on the stack. -/
  needsValue : Bool := false
deriving DecidableEq, Repr

/-- The context of an argument or subscript of an expression. -/
def Context.inner (ctx : Context) (wholeArray : Bool) : Context :=
  { answer := ctx.answer, wholeArray := wholeArray, needsValue := true }

/-- The result of compiling an expression. -/
inductive Outcome
  | value
  /-- The expression was `()`, and nothing was compiled. -/
  | empty
deriving DecidableEq, Repr

/-- What is known of an expression that has been compiled in part. -/
structure Tally where
  /-- The values that the code so far leaves on the stack. -/
  values : Nat := 0
  /-- The parentheses that are open. -/
  parens : Nat := 0
  /-- The comparisons so far. -/
  relations : Nat := 0
  /-- An operator or an open parenthesis was read last, or nothing at all. -/
  afterOperator : Bool := true
  /-- Of operands and operators, parentheses apart, an operand came last. -/
  afterOperand : Bool := false
  /-- A closing parenthesis was read last. -/
  afterParen : Bool := false
  /-- The operand read last can be assigned to. -/
  assignable : Bool := false
  /-- A step `++` or `--` was read last. -/
  stepped : Bool := false
  /-- The operator that applies last is an assignment. -/
  assigned : Bool := false
deriving DecidableEq, Repr

namespace Tally

/-- An operand is complete, so that an operator must follow. -/
def complete (t : Tally) : Bool := !t.afterOperator && (t.afterParen || t.afterOperand)

/-- One more operand. -/
def operand (t : Tally) (assignable : Bool) : Tally :=
  { t with
    values := t.values + 1
    afterOperator := false
    afterOperand := true
    afterParen := false
    assignable := assignable
    stepped := false }

/-- One more operator. -/
def operator (t : Tally) : Tally :=
  { t with
    afterOperator := true
    afterOperand := false
    afterParen := false
    assignable := false
    stepped := false }

/-- One more open parenthesis. -/
def openParen (t : Tally) : Tally :=
  { t with
    parens := t.parens + 1
    afterOperator := true
    afterParen := false
    assignable := false
    stepped := false }

/-- One parenthesis is closed, and some operators inside it applied. -/
def closeParen (t : Tally) (applied : List Operator) : Tally :=
  { t with
    parens := t.parens - 1
    afterOperator := false
    afterParen := true
    assignable := t.assignable && applied.isEmpty
    stepped := false }

/-- The operand read last was cut to an integer. -/
def truncated (t : Tally) : Tally :=
  { t with afterOperand := true, afterParen := false, assignable := false, stepped := false }

/-- A step `++` or `--` was applied to the operand read last. -/
def postStep (t : Tally) : Tally :=
  { t with afterOperator := false, afterParen := false, assignable := false, stepped := true }

/-- A step `++` or `--` was applied to the operand behind it. -/
def preStep (t : Tally) : Tally :=
  { t with
    values := t.values + 1
    afterOperator := false
    afterOperand := true
    afterParen := false
    assignable := false
    stepped := true }

/-- Some operators have been applied: one of two operands makes one value of two. -/
def apply (t : Tally) (applied : List Operator) : Tally :=
  { t with values := t.values - (applied.filter fun op => !op.isUnary).length }

/-- The rest of the operators have been applied, in order. -/
def finish (t : Tally) (applied : List Operator) : Tally :=
  { t.apply applied with
    assigned := applied.getLast?.any Operator.isAssignment
    stepped := t.stepped && applied.isEmpty }

end Tally

/-- Change code whose value nobody wants so that it leaves none, if it ends in an assignment or a
step: an assignment has a form without value, and a step behind its operand becomes the assignment
of a sum. -/
def Code.discardValue? (c : Code) (t : Tally) (line : Nat) : Option Code :=
  match c.lastOpcode? with
  | none => none
  | some last =>
    if t.assigned then last.discarding?.bind (c.replaceLast? last)
    else if t.stepped then
      match last with
      | .inc => (c.replaceLast? last .one).map (·.writeOpcode (.store (some .plus)) line)
      | .dec => (c.replaceLast? last .one).map (·.writeOpcode (.store (some .minus)) line)
      | .assign (some .plus) => c.replaceLast? last (.store (some .plus))
      | .assign (some .minus) => c.replaceLast? last (.store (some .minus))
      | _ => none
    else none

end DeskCalc
