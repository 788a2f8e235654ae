import DeskCalc.Span
import DeskCalc.Text.Lines

/-!
# What the compiler complains about

A `Diagnostic` has a cause, a place and, where an identifier or a token is to blame, its name.
The causes fall into five categories. The constructs that POSIX `bc` does not have are
`Violation`s; they are the only causes that may be recorded as warnings instead of ending the
compilation.

`Diagnostic.message` is the one-line text, and `Diagnostic.render` adds the source line with a
caret under the column.
-/

namespace DeskCalc

/-- A construct of this dialect that POSIX `bc` does not have. -/
inductive Violation
  | nameLength
  | hashComment
  | keyword
  | dotLast
  | operator
  | stringOperand
  | relationalPosition
  | multipleRelational
  | emptyForClause
  | returnParens
  | braceOnNewLine
  | voidFunction
  | referenceParameter
  | defineAfterSemicolon
deriving DecidableEq, Repr

/-- The rule of POSIX that is not kept. -/
def Violation.message : Violation → String
  | nameLength => "POSIX only allows one-character names"
  | hashComment => "POSIX does not allow '#' comments"
  | keyword => "POSIX does not define this keyword"
  | dotLast => "POSIX does not allow '.' as 'last'"
  | operator => "POSIX does not define this operator"
  | stringOperand => "POSIX does not allow strings in expressions"
  | relationalPosition => "POSIX only allows comparisons in if, while and for conditions"
  | multipleRelational => "POSIX only allows one comparison per condition"
  | emptyForClause => "POSIX does not allow empty for clauses"
  | returnParens => "POSIX requires parentheses around return values"
  | braceOnNewLine => "POSIX requires the function body brace on the header line"
  | voidFunction => "POSIX does not allow void functions"
  | referenceParameter => "POSIX does not allow reference parameters"
  | defineAfterSemicolon => "POSIX does not allow a function definition after a semicolon"

/-- The family of a cause. -/
inductive Category
  | lexical
  | syntactic
  | semantic
  | posix
  | resource
deriving DecidableEq, Repr

/-- The word a diagnostic starts with. -/
def Category.message : Category → String
  | lexical => "lexical error"
  | syntactic => "syntax error"
  | semantic => "semantic error"
  | posix => "POSIX error"
  | resource => "resource error"

/-- Why a source text is refused. -/
inductive Cause
  /-- A character that cannot start a token. -/
  | unexpectedChar
  | unterminatedString
  | unterminatedComment
  /-- A token that is not valid where it stands. -/
  | unexpectedToken
  /-- The input ended inside a construct. -/
  | unexpectedEnd
  /-- Operands and operators do not form one expression. -/
  | invalidExpression
  /-- Nothing but `()` where a value is required. -/
  | emptyExpression
  | invalidPrint
  /-- A malformed function header or list of locals. -/
  | invalidFunction
  /-- The input ended with a brace still open. -/
  | blockEnd
  /-- Assignment to something that is not a variable. -/
  | invalidAssignment
  | breakOutsideLoop
  | continueOutsideLoop
  | returnOutsideFunction
  | returnValueInVoid
  /-- An `else` without an `if` that has just ended. -/
  | elseWithoutIf
  /-- An `auto` after other statements of a function body. -/
  | misplacedAuto
  | emptyAuto
  | duplicateLocal
  | referenceNotArray
  | builtinArity
  /-- A whole array `name[]` where none is allowed, or something else where one is required. -/
  | arrayReference
  /-- A `read()` in the answer to a `read()`. -/
  | recursiveRead
  /-- A `define` inside an unfinished block. -/
  | nestedFunction
  /-- A construct that POSIX does not have. -/
  | posix (violation : Violation)
  | tooManyVariables
  | tooManyArrays
  | tooManyFunctions
  | tooManyConstants
deriving DecidableEq, Repr

namespace Cause

/-- What is wrong, without the place. -/
def message : Cause → String
  | unexpectedChar => "unexpected character"
  | unterminatedString => "unterminated string"
  | unterminatedComment => "unterminated comment"
  | unexpectedToken => "unexpected token"
  | unexpectedEnd => "unexpected end of file"
  | invalidExpression => "invalid expression"
  | emptyExpression => "empty expression"
  | invalidPrint => "invalid print statement"
  | invalidFunction => "invalid function definition"
  | blockEnd => "end of block not found"
  | invalidAssignment => "invalid assignment"
  | breakOutsideLoop => "break outside loop"
  | continueOutsideLoop => "continue outside loop"
  | returnOutsideFunction => "return outside function"
  | returnValueInVoid => "void function returns a value"
  | elseWithoutIf => "else without if"
  | misplacedAuto => "auto must start the function body"
  | emptyAuto => "auto without names"
  | duplicateLocal => "duplicate parameter or auto"
  | referenceNotArray => "reference parameter is not an array"
  | builtinArity => "wrong number of builtin arguments"
  | arrayReference => "misplaced array reference"
  | recursiveRead => "read() inside read()"
  | nestedFunction => "function definition inside a block"
  | posix violation => violation.message
  | tooManyVariables => "too many variables"
  | tooManyArrays => "too many arrays"
  | tooManyFunctions => "too many functions"
  | tooManyConstants => "too many constants"

/-- The family a cause belongs to. -/
def category : Cause → Category
  | unexpectedChar | unterminatedString | unterminatedComment => .lexical
  | unexpectedToken | unexpectedEnd | invalidExpression | emptyExpression | invalidPrint
  | invalidFunction | blockEnd => .syntactic
  | invalidAssignment | breakOutsideLoop | continueOutsideLoop | returnOutsideFunction
  | returnValueInVoid | elseWithoutIf | misplacedAuto | emptyAuto | duplicateLocal
  | referenceNotArray | builtinArity | arrayReference | recursiveRead | nestedFunction => .semantic
  | posix _ => .posix
  | tooManyVariables | tooManyArrays | tooManyFunctions | tooManyConstants => .resource

end Cause

/-- A complaint about a place of the source, with the name that is to blame, if there is one. -/
structure Diagnostic where
  cause : Cause
  span : Span
  name : Option String := none
deriving DecidableEq, Repr

namespace Diagnostic

/-- The family of a complaint. -/
def category (d : Diagnostic) : Category := d.cause.category

/-- A complaint in one line: what is wrong, where, and the name to blame. -/
def message (d : Diagnostic) : String :=
  d.cause.message ++ " at " ++ d.span.text ++
    match d.name with
    | some name => ": " ++ name
    | none => ""

/-- The gutter of a source line: its number in four places. -/
def gutter (line : Nat) : String := Text.padLeft 4 ' ' (toString line) ++ " | "

/-- A complaint followed by the line of `source` it is about, if there is one, and a caret below
it, as far to the right as its column says. -/
def render (d : Diagnostic) (source : String) : String :=
  d.category.message ++ ": " ++ d.message ++
    match (Text.lines source)[d.span.line - 1]? with
    | some line =>
      "\n" ++ gutter d.span.line ++ line ++
        "\n     | " ++ String.ofList (List.replicate (d.span.col - 1) ' ') ++ "^"
    | none => ""

end Diagnostic

end DeskCalc
