import DeskCalc.Span
import DeskCalc.Vocabulary

/-!
# Tokens

A token is a symbol, a keyword, a name, a literal, a line feed, or the end of the text. Each
symbol and each keyword has one spelling; `Symbol.all` and `Keyword.all` list them, and the
scanner looks them up there.
-/

namespace DeskCalc

/-- The operators and punctuation marks of the language. -/
inductive Symbol
  | increment
  | decrement
  | bang
  /-- The symbol `$`, which cuts a value to an integer. -/
  | dollar
  | arith (op : Arith)
  | relation (rel : Relation)
  | or
  | and
  /-- The assignment `op=` for `some op`, and `=` for `none`. -/
  | assign (op : Option Arith)
  | leftParen
  | rightParen
  | leftBracket
  | rightBracket
  | leftBrace
  | rightBrace
  | comma
  | semicolon
deriving DecidableEq, Repr

namespace Symbol

/-- How a symbol is spelt in the source. -/
def spelling : Symbol → String
  | increment => "++"
  | decrement => "--"
  | bang => "!"
  | dollar => "$"
  | arith op => op.spelling
  | relation rel => rel.spelling
  | or => "||"
  | and => "&&"
  | assign (some op) => op.spelling ++ "="
  | assign none => "="
  | leftParen => "("
  | rightParen => ")"
  | leftBracket => "["
  | rightBracket => "]"
  | leftBrace => "\x7b"
  | rightBrace => "\x7d"
  | comma => ","
  | semicolon => ";"

theorem spelling_ne_nil (s : Symbol) : s.spelling.toList ≠ [] := by
  cases s with
  | arith op => cases op <;> decide
  | relation rel => cases rel <;> decide
  | assign op =>
    cases op with
    | none => decide
    | some op => cases op <;> decide
  | _ => decide

/-- Every symbol, the longer spellings first: the first one that starts a text is the longest. -/
def all : List Symbol := [
  .assign (some .shiftLeft), .assign (some .shiftRight),
  .increment, .decrement, .or, .and,
  .arith .shiftLeft, .arith .shiftRight,
  .relation .eq, .relation .le, .relation .ge, .relation .ne,
  .assign (some .power), .assign (some .multiply), .assign (some .divide),
  .assign (some .modulus), .assign (some .plus), .assign (some .minus), .assign (some .places),
  .bang, .dollar,
  .arith .power, .arith .multiply, .arith .divide, .arith .modulus, .arith .plus, .arith .minus,
  .arith .places, .relation .lt, .relation .gt, .assign none,
  .leftParen, .rightParen, .leftBracket, .rightBracket, .leftBrace, .rightBrace,
  .comma, .semicolon]

/-- The symbols that POSIX does not define. -/
def isExtension : Symbol → Bool
  | bang | dollar | or | and => true
  | arith op => op.isExtension
  | assign (some op) => op.isExtension
  | _ => false

/-- The symbol is `=` or a compound assignment. -/
def isAssignment : Symbol → Bool
  | assign _ => true
  | _ => false

/-- The symbols that compute something. -/
def isOperator : Symbol → Bool
  | increment | decrement | bang | dollar | arith _ | relation _ | or | and | assign _ => true
  | _ => false

end Symbol

/-- The reserved words of the language. -/
inductive Keyword
  | autoDecl
  | breakLoop
  | continueLoop
  | define
  | elseBranch
  | forLoop
  | halt
  | ifBranch
  | print
  | quit
  | returnValue
  | stream
  | whileLoop
  | setting (s : Setting)
  | unary (f : Unary)
  | query (f : Query)
  | ternary (f : Ternary)
deriving DecidableEq, Repr

namespace Keyword

/-- How a keyword is spelt in the source. -/
def spelling : Keyword → String
  | autoDecl => "auto"
  | breakLoop => "break"
  | continueLoop => "continue"
  | define => "define"
  | elseBranch => "else"
  | forLoop => "for"
  | halt => "halt"
  | ifBranch => "if"
  | print => "print"
  | quit => "quit"
  | returnValue => "return"
  | stream => "stream"
  | whileLoop => "while"
  | setting s => s.spelling
  | unary f => f.spelling
  | query f => f.spelling
  | ternary f => f.spelling

/-- Every keyword. -/
def all : List Keyword := [
  .autoDecl, .breakLoop, .continueLoop, .define, .elseBranch, .forLoop, .halt, .ifBranch,
  .print, .quit, .returnValue, .stream, .whileLoop,
  .setting .last, .setting .ibase, .setting .obase, .setting .scale, .setting .seed,
  .unary .length, .unary .sqrt, .unary .abs, .unary .irand, .unary .asciify,
  .query .read, .query .rand, .query .maxIbase, .query .maxObase, .query .maxScale,
  .query .maxRand, .query .lineLength, .query .globalStacks, .query .leadingZero,
  .ternary .modexp, .ternary .divmod]

/-- The keyword that is spelt `name`, if there is one. -/
def ofName? (name : String) : Option Keyword :=
  all.find? fun k => k.spelling == name

/-- The keywords that POSIX defines. -/
def isPosix : Keyword → Bool
  | autoDecl | breakLoop | define | forLoop | ifBranch | quit | returnValue | whileLoop => true
  | setting .ibase | setting .obase | setting .scale => true
  | unary .length | unary .sqrt => true
  | _ => false

/-- The keywords that stand for a value. -/
def isOperand : Keyword → Bool
  | setting _ | unary _ | query _ | ternary _ => true
  | _ => false

end Keyword

namespace Token

/-- What sort of token it is. -/
inductive Kind
  /-- The end of the text. -/
  | eof
  /-- A piece of text that is refused. -/
  | error
  /-- A line feed, which ends a statement. -/
  | newline
  | number
  | string
  | name
  | symbol (s : Symbol)
  | keyword (k : Keyword)
deriving DecidableEq, Repr

namespace Kind

/-- How a complaint names a token of this sort. -/
def description : Kind → String
  | eof => "end of file"
  | error => "error"
  | newline => "newline"
  | number => "number"
  | string => "string"
  | name => "name"
  | symbol s => "'" ++ s.spelling ++ "'"
  | keyword k => "'" ++ k.spelling ++ "'"

/-- The token is a reserved word. -/
def isKeyword : Kind → Bool
  | keyword _ => true
  | _ => false

/-- The token is a reserved word of POSIX. -/
def isPosixKeyword : Kind → Bool
  | keyword k => k.isPosix
  | _ => false

/-- The token computes something. -/
def isOperator : Kind → Bool
  | symbol s => s.isOperator
  | _ => false

/-- The token is `=` or a compound assignment. -/
def isAssignment : Kind → Bool
  | symbol s => s.isAssignment
  | _ => false

/-- The token can stand inside an expression: an expression ends at the first one that cannot. -/
def inExpression : Kind → Bool
  | number | string | name => true
  | symbol .leftParen | symbol .rightParen => true
  | symbol s => s.isOperator
  | keyword k => k.isOperand
  | _ => false

/-- The token can begin an expression that is a statement. -/
def startsExpression : Kind → Bool
  | number | name => true
  | symbol .increment | symbol .decrement | symbol (.arith .minus) | symbol .bang => true
  | symbol .leftParen => true
  | keyword k => k.isOperand
  | _ => false

end Kind

end Token

/-- A token: its sort, the text it was read from, and its place. -/
structure Token where
  kind : Token.Kind
  text : String
  span : Span
deriving DecidableEq, Repr

/-- The text between the quotes of a string token; any other text is left alone. -/
def Token.contents (t : Token) : String :=
  match t.text.toList with
  | '"' :: rest =>
    if rest.getLast? = some '"' then String.ofList rest.dropLast else t.text
  | _ => t.text

end DeskCalc
