import DeskCalc.Opcode
import DeskCalc.Token

/-!
# Operators that wait for their operands

While an expression is compiled its operators wait on a stack until what they apply to is
complete. A lower precedence binds tighter. `++` and `--` (which would have 0) and `$` (2) are
compiled as soon as they are read and never wait.
-/

namespace DeskCalc

/-- An entry of the operator stack. -/
inductive Operator
  | neg
  | not
  | arith (op : Arith)
  | relation (rel : Relation)
  | and
  | or
  | assign (op : Option Arith)
  /-- An open parenthesis, which no operator passes. -/
  | paren
deriving DecidableEq, Repr

namespace Operator

/-- The operator a symbol stands for; `-` is subtraction here. -/
def ofSymbol? : Symbol → Option Operator
  | .bang => some .not
  | .arith op => some (.arith op)
  | .relation rel => some (.relation rel)
  | .and => some .and
  | .or => some .or
  | .assign op => some (.assign op)
  | .leftParen => some .paren
  | _ => none

/-- The operator a token stands for. -/
def ofKind? : Token.Kind → Option Operator
  | .symbol s => ofSymbol? s
  | _ => none

/-- How tightly an operator binds: the lower, the tighter. -/
def precedence : Operator → Nat
  | neg | not => 1
  | arith .places => 3
  | arith .power => 4
  | arith .multiply | arith .divide | arith .modulus => 5
  | arith .plus | arith .minus => 6
  | arith .shiftLeft | arith .shiftRight => 7
  | assign _ => 8
  | relation _ => 9
  | and => 10
  | or => 11
  | paren => 255

/-- Among operators of one precedence the left one applies first. -/
def isLeftAssoc : Operator → Bool
  | neg | not | assign _ | paren => false
  | arith .places | arith .power => false
  | _ => true

/-- The operator has one operand, which follows it. -/
def isUnary : Operator → Bool
  | neg | not => true
  | _ => false

/-- The operator compares. -/
def isRelational : Operator → Bool
  | relation _ => true
  | _ => false

/-- The operator assigns. -/
def isAssignment : Operator → Bool
  | assign _ => true
  | _ => false

/-- The instruction of an operator; a parenthesis has none. -/
def opcode? : Operator → Option Opcode
  | neg => some .neg
  | not => some .not
  | arith op => some (.arith op)
  | relation rel => some (.relation rel)
  | and => some .and
  | or => some .or
  | assign op => some (.assign op)
  | paren => none

/-- The waiting operator `top` applies before `incoming` does. -/
def appliesBefore (top incoming : Operator) : Bool :=
  top != paren &&
    (top.precedence < incoming.precedence ||
      (top.precedence == incoming.precedence && incoming.isLeftAssoc))

end Operator

end DeskCalc
