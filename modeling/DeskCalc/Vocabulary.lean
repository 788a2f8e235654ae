/-!
# The words shared by source and code

The arithmetic operators, the comparisons, the settings and the builtin functions of the
language. They occur as tokens in the source and as instructions in the code, and every type here
lists its words in the order of their instructions.
-/

namespace DeskCalc

/-- A binary arithmetic operator; each of them also has an assigning form. -/
inductive Arith
  | power
  | multiply
  | divide
  | modulus
  | plus
  | minus
  /-- The operator `@`, which sets the number of decimal places. -/
  | places
  | shiftLeft
  | shiftRight
deriving DecidableEq, Repr

/-- How an operator is spelt in the source. -/
def Arith.spelling : Arith → String
  | power => "^"
  | multiply => "*"
  | divide => "/"
  | modulus => "%"
  | plus => "+"
  | minus => "-"
  | places => "@"
  | shiftLeft => "<<"
  | shiftRight => ">>"

/-- The operators that POSIX does not define. -/
def Arith.isExtension : Arith → Bool
  | places | shiftLeft | shiftRight => true
  | _ => false

/-- A comparison of two values. -/
inductive Relation
  | eq
  | le
  | ge
  | ne
  | lt
  | gt
deriving DecidableEq, Repr

/-- How a comparison is spelt in the source. -/
def Relation.spelling : Relation → String
  | eq => "=="
  | le => "<="
  | ge => ">="
  | ne => "!="
  | lt => "<"
  | gt => ">"

/-- A setting of the calculator: a keyword that can be read and assigned like a variable. -/
inductive Setting
  /-- The value printed last, also spelt `.`. -/
  | last
  | ibase
  | obase
  | scale
  | seed
deriving DecidableEq, Repr

/-- The keyword of a setting. -/
def Setting.spelling : Setting → String
  | last => "last"
  | ibase => "ibase"
  | obase => "obase"
  | scale => "scale"
  | seed => "seed"

/-- A builtin function of one argument that has a keyword of its own. -/
inductive Unary
  | length
  | sqrt
  | abs
  | irand
  | asciify
deriving DecidableEq, Repr

/-- The keyword of a builtin of one argument. -/
def Unary.spelling : Unary → String
  | length => "length"
  | sqrt => "sqrt"
  | abs => "abs"
  | irand => "irand"
  | asciify => "asciify"

/-- The builtins that take a whole array as well as a value. -/
def Unary.takesArray : Unary → Bool
  | length | asciify => true
  | _ => false

/-- A builtin function without arguments. -/
inductive Query
  | read
  | rand
  | maxIbase
  | maxObase
  | maxScale
  | maxRand
  | lineLength
  | globalStacks
  | leadingZero
deriving DecidableEq, Repr

/-- The keyword of a builtin without arguments. -/
def Query.spelling : Query → String
  | read => "read"
  | rand => "rand"
  | maxIbase => "maxibase"
  | maxObase => "maxobase"
  | maxScale => "maxscale"
  | maxRand => "maxrand"
  | lineLength => "line_length"
  | globalStacks => "global_stacks"
  | leadingZero => "leading_zero"

/-- A builtin function of three arguments. -/
inductive Ternary
  | modexp
  /-- The third argument of `divmod` is the array that receives the remainder. -/
  | divmod
deriving DecidableEq, Repr

/-- The keyword of a builtin of three arguments. -/
def Ternary.spelling : Ternary → String
  | modexp => "modexp"
  | divmod => "divmod"

end DeskCalc
