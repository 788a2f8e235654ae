import DeskCalc.Vocabulary

/-!
# The instruction set

The code of a program runs on a stack machine. Operators take their operands off the stack and
leave their result; an assignment expects its target below the value. `Opcode.all` lists the
instructions in the order of their bytes.
-/

namespace DeskCalc

/-- The instructions of the stack machine. -/
inductive Opcode
  /-- Increase the target on top of the stack, leaving its old value. -/
  | inc
  | dec
  | neg
  | not
  /-- Cut to an integer. -/
  | trunc
  | arith (op : Arith)
  | relation (rel : Relation)
  | or
  | and
  /-- Assign and leave the value; `none` is plain assignment. -/
  | assign (op : Option Arith)
  /-- Assign and leave nothing. -/
  | store (op : Option Arith)
  /-- Push a number. Operand: its constant. -/
  | num
  /-- Push a string. Operand: its constant. -/
  | str
  /-- Push a variable. Operand: its index. -/
  | var
  /-- Push the element of an array whose index is on the stack. Operand: the array. -/
  | elem
  /-- Push a whole array. Operand: the array. -/
  | array
  | zero
  | one
  | setting (s : Setting)
  | length
  /-- The builtin `scale(x)`, as opposed to the setting. -/
  | scaleOf
  | sqrt
  | abs
  | irand
  | asciify
  | query (f : Query)
  | modexp
  /-- Leave the quotient and the remainder. -/
  | divmod
  /-- Operands: the number of arguments and the function. -/
  | call
  | ret
  /-- Return zero. -/
  | ret0
  /-- Return from a function without a value. -/
  | retVoid
  /-- Print with a line feed and remember in `last`. -/
  | print
  /-- Print without a line feed. -/
  | printPop
  | printStr
  /-- Write as raw bytes. -/
  | printStream
  /-- Operand: a label. -/
  | jump
  /-- Jump when the value taken off the stack is zero. Operand: a label. -/
  | jumpZero
  | pop
  | swap
  | halt
deriving DecidableEq, Repr

namespace Arith

/-- The place of an operator among the operators. -/
def index : Arith → Nat
  | power => 0
  | multiply => 1
  | divide => 2
  | modulus => 3
  | plus => 4
  | minus => 5
  | places => 6
  | shiftLeft => 7
  | shiftRight => 8

/-- The name of an operator in listings. -/
def mnemonic : Arith → String
  | power => "POWER"
  | multiply => "MULTIPLY"
  | divide => "DIVIDE"
  | modulus => "MODULUS"
  | plus => "PLUS"
  | minus => "MINUS"
  | places => "PLACES"
  | shiftLeft => "LSHIFT"
  | shiftRight => "RSHIFT"

end Arith

namespace Relation

/-- The place of a comparison among the comparisons. -/
def index : Relation → Nat
  | eq => 0
  | le => 1
  | ge => 2
  | ne => 3
  | lt => 4
  | gt => 5

/-- The name of a comparison in listings. -/
def mnemonic : Relation → String
  | eq => "REL_EQ"
  | le => "REL_LE"
  | ge => "REL_GE"
  | ne => "REL_NE"
  | lt => "REL_LT"
  | gt => "REL_GT"

end Relation

namespace Setting

/-- The place of a setting among the settings. -/
def index : Setting → Nat
  | last => 0
  | ibase => 1
  | obase => 2
  | scale => 3
  | seed => 4

/-- The name of a setting in listings. -/
def mnemonic : Setting → String
  | last => "LAST"
  | ibase => "IBASE"
  | obase => "OBASE"
  | scale => "SCALE"
  | seed => "SEED"

end Setting

namespace Query

/-- The place of a builtin among the builtins without arguments. -/
def index : Query → Nat
  | read => 0
  | rand => 1
  | maxIbase => 2
  | maxObase => 3
  | maxScale => 4
  | maxRand => 5
  | lineLength => 6
  | globalStacks => 7
  | leadingZero => 8

/-- The name of a builtin without arguments in listings. -/
def mnemonic : Query → String
  | read => "READ"
  | rand => "RAND"
  | maxIbase => "MAXIBASE"
  | maxObase => "MAXOBASE"
  | maxScale => "MAXSCALE"
  | maxRand => "MAXRAND"
  | lineLength => "LINE_LENGTH"
  | globalStacks => "GLOBAL_STACKS"
  | leadingZero => "LEADING_ZERO"

end Query

/-- The instruction of a builtin of one argument. -/
def Unary.opcode : Unary → Opcode
  | length => .length
  | sqrt => .sqrt
  | abs => .abs
  | irand => .irand
  | asciify => .asciify

namespace Opcode

/-- The place of an assignment among the assignments; plain assignment is the last one. -/
def assignIndex : Option Arith → Nat
  | some op => op.index
  | none => 9

/-- The number of an instruction. -/
def index : Opcode → Nat
  | inc => 0
  | dec => 1
  | neg => 2
  | not => 3
  | trunc => 4
  | arith op => 5 + op.index
  | relation rel => 14 + rel.index
  | or => 20
  | and => 21
  | assign op => 22 + assignIndex op
  | store op => 32 + assignIndex op
  | num => 42
  | str => 43
  | var => 44
  | elem => 45
  | array => 46
  | zero => 47
  | one => 48
  | setting s => 49 + s.index
  | length => 54
  | scaleOf => 55
  | sqrt => 56
  | abs => 57
  | irand => 58
  | asciify => 59
  | query f => 60 + f.index
  | modexp => 69
  | divmod => 70
  | call => 71
  | ret => 72
  | ret0 => 73
  | retVoid => 74
  | print => 75
  | printPop => 76
  | printStr => 77
  | printStream => 78
  | jump => 79
  | jumpZero => 80
  | pop => 81
  | swap => 82
  | halt => 83

/-- Every instruction, in the order of their numbers. -/
def all : List Opcode := [
  .inc, .dec, .neg, .not, .trunc,
  .arith .power, .arith .multiply, .arith .divide, .arith .modulus, .arith .plus, .arith .minus,
  .arith .places, .arith .shiftLeft, .arith .shiftRight,
  .relation .eq, .relation .le, .relation .ge, .relation .ne, .relation .lt, .relation .gt,
  .or, .and,
  .assign (some .power), .assign (some .multiply), .assign (some .divide),
  .assign (some .modulus), .assign (some .plus), .assign (some .minus), .assign (some .places),
  .assign (some .shiftLeft), .assign (some .shiftRight), .assign none,
  .store (some .power), .store (some .multiply), .store (some .divide),
  .store (some .modulus), .store (some .plus), .store (some .minus), .store (some .places),
  .store (some .shiftLeft), .store (some .shiftRight), .store none,
  .num, .str, .var, .elem, .array, .zero, .one,
  .setting .last, .setting .ibase, .setting .obase, .setting .scale, .setting .seed,
  .length, .scaleOf, .sqrt, .abs, .irand, .asciify,
  .query .read, .query .rand, .query .maxIbase, .query .maxObase, .query .maxScale,
  .query .maxRand, .query .lineLength, .query .globalStacks, .query .leadingZero,
  .modexp, .divmod, .call, .ret, .ret0, .retVoid,
  .print, .printPop, .printStr, .printStream, .jump, .jumpZero, .pop, .swap, .halt]

/-- The byte of an instruction. -/
def toByte (op : Opcode) : UInt8 := UInt8.ofNat op.index

/-- The instruction of a byte, if it is one. -/
def ofByte? (b : UInt8) : Option Opcode := all[b.toNat]?

/-- How many operands follow the instruction. -/
def operandCount : Opcode → Nat
  | call => 2
  | num | str | var | elem | array | jump | jumpZero => 1
  | _ => 0

/-- An assignment that leaves its value. -/
def isAssignment : Opcode → Bool
  | assign _ => true
  | _ => false

/-- An assignment that leaves nothing. -/
def isStore : Opcode → Bool
  | store _ => true
  | _ => false

/-- The form of an assignment that leaves nothing. -/
def discarding? : Opcode → Option Opcode
  | assign op => some (store op)
  | _ => none

/-- The name of an instruction in listings. -/
def mnemonic : Opcode → String
  | inc => "INC"
  | dec => "DEC"
  | neg => "NEG"
  | not => "BOOL_NOT"
  | trunc => "TRUNC"
  | arith op => op.mnemonic
  | relation rel => rel.mnemonic
  | or => "BOOL_OR"
  | and => "BOOL_AND"
  | assign (some op) => "ASSIGN_" ++ op.mnemonic
  | assign none => "ASSIGN"
  | store (some op) => "ASSIGN_" ++ op.mnemonic ++ "_NO_VAL"
  | store none => "ASSIGN_NO_VAL"
  | num => "NUM"
  | str => "STR"
  | var => "VAR"
  | elem => "ARRAY_ELEM"
  | array => "ARRAY"
  | zero => "ZERO"
  | one => "ONE"
  | setting s => s.mnemonic
  | length => "LENGTH"
  | scaleOf => "SCALE_FUNC"
  | sqrt => "SQRT"
  | abs => "ABS"
  | irand => "IRAND"
  | asciify => "ASCIIFY"
  | query f => f.mnemonic
  | modexp => "MODEXP"
  | divmod => "DIVMOD"
  | call => "CALL"
  | ret => "RET"
  | ret0 => "RET0"
  | retVoid => "RET_VOID"
  | print => "PRINT"
  | printPop => "PRINT_POP"
  | printStr => "PRINT_STR"
  | printStream => "PRINT_STREAM"
  | jump => "JUMP"
  | jumpZero => "JUMP_ZERO"
  | pop => "POP"
  | swap => "SWAP"
  | halt => "HALT"

/-- The instruction with a name, if there is one. -/
def ofMnemonic? (name : String) : Option Opcode :=
  all.find? fun op => op.mnemonic == name

/-- The list gives every instruction at its number. -/
theorem all_getElem?_index (op : Opcode) : all[op.index]? = some op := by
  cases op with
  | arith op => cases op <;> rfl
  | relation rel => cases rel <;> rfl
  | assign op =>
    cases op with
    | none => rfl
    | some op => cases op <;> rfl
  | store op =>
    cases op with
    | none => rfl
    | some op => cases op <;> rfl
  | setting s => cases s <;> rfl
  | query f => cases f <;> rfl
  | _ => rfl

end Opcode

end DeskCalc
