import DeskCalc.Expression.Operand

/-!
# The grammar of expressions

An `Expr` is an expression as a tree. `Expr.words` are the words it is written with, and
`Expr.postorder` is its code: the code of the operands, then the operator. Which trees the
language has is `Expr.wellFormed`: an operand of an operator binds tighter than the operator, or
as tightly if it stands on the side that the operator groups to; the left side of an assignment is
a variable, an element of an array or a setting, maybe in parentheses; steps `++` and `--` apply
to one of these without parentheses; and `$` applies to whatever binds tighter than every operator.
-/

namespace DeskCalc

/-- A token apart from its place: its kind and, where the kind leaves it open, its text. -/
abbrev Word := Token.Kind × String

/-- The word of a token. -/
def Token.word (t : Token) : Word :=
  match t.kind with
  | .number | .string | .name => (t.kind, t.text)
  | k => (k, "")

@[simp] theorem Token.word_fst (t : Token) : t.word.1 = t.kind := by
  unfold word
  split <;> rfl

/-- The word of a symbol. -/
def Symbol.word (s : Symbol) : Word := (.symbol s, "")

@[simp] theorem Symbol.word_fst (s : Symbol) : s.word.1 = .symbol s := rfl

theorem Token.word_symbol {t : Token} {s : Symbol} (h : t.kind = .symbol s) : t.word = s.word := by
  rw [word, h, Symbol.word]

/-- The word of a keyword. -/
def Keyword.word (k : Keyword) : Word := (.keyword k, "")

@[simp] theorem Keyword.word_fst (k : Keyword) : k.word.1 = .keyword k := rfl

theorem Token.word_keyword {t : Token} {k : Keyword} (h : t.kind = .keyword k) : t.word = k.word := by
  rw [word, h, Keyword.word]

/-- A brace or an `else`: whether it ends a statement depends on the open blocks. -/
def Token.Kind.endsBlock : Token.Kind → Bool
  | .symbol .rightBrace | .keyword .elseBranch => true
  | _ => false

namespace Operator

/-- The word an operator is written with. -/
def word : Operator → Word
  | neg => Symbol.word (.arith .minus)
  | not => Symbol.word .bang
  | arith op => Symbol.word (.arith op)
  | relation rel => Symbol.word (.relation rel)
  | and => Symbol.word .and
  | or => Symbol.word .or
  | assign op => Symbol.word (.assign op)
  | paren => Symbol.word .leftParen

/-- The operator has an operand on either side. -/
def isBinary (op : Operator) : Bool := !op.isUnary && op != paren

/-- An operand of this level can stand on the left of the operator. -/
def takesLeft (op : Operator) (level : Nat) : Bool :=
  level < op.precedence || (level == op.precedence && op.isLeftAssoc)

/-- An operand of this level can stand on the right of the operator. -/
def takesRight (op : Operator) (level : Nat) : Bool :=
  level < op.precedence || (level == op.precedence && !op.isLeftAssoc)

end Operator

/-- An instruction that names its operands. -/
inductive Symbolic
  | plain (op : Opcode)
  | number (text : String)
  | string (text : String)
  | var (name : String)
  | elem (name : String)
  | array (name : String)
  | call (count : Nat) (name : String)
deriving DecidableEq, Repr

/-- Expressions. -/
inductive Expr
  /-- A number as it stands in the source. -/
  | number (text : String)
  /-- A string with its quotes. -/
  | string (text : String)
  | var (name : String)
  | elem (name : String) (index : Expr)
  | setting (s : Setting)
  /-- A whole array, which only an argument can be. -/
  | whole (name : String)
  | call (name : String) (args : List Expr)
  | query (f : Query)
  | unary (f : Unary) (arg : Expr)
  /-- The builtin `scale(x)`, as opposed to the setting. -/
  | scaleOf (arg : Expr)
  | modexp (a b c : Expr)
  /-- The remainder goes to the first element of an array. -/
  | divmod (a b : Expr) (array : String)
  /-- A step `++`, if `up`, or `--` before its target. -/
  | preStep (up : Bool) (target : Expr)
  /-- A step `++`, if `up`, or `--` behind its target. -/
  | postStep (target : Expr) (up : Bool)
  | trunc (e : Expr)
  | paren (e : Expr)
  | prefixed (op : Operator) (e : Expr)
  | binary (op : Operator) (left right : Expr)

namespace Expr

variable {e : Expr}

/-! ## How an expression is written -/

/-- The symbol of a step. -/
def stepSymbol (up : Bool) : Symbol := if up then .increment else .decrement

/-- A name with brackets behind it. -/
def wholeWords (name : String) : List Word :=
  [(.name, name), Symbol.word .leftBracket, Symbol.word .rightBracket]

mutual

/-- The words of an expression. -/
def words : Expr → List Word
  | number text => [(.number, text)]
  | string text => [(.string, text)]
  | var name => [(.name, name)]
  | elem name index =>
    (.name, name) :: Symbol.word .leftBracket :: index.words ++ [Symbol.word .rightBracket]
  | setting s => [Keyword.word (.setting s)]
  | whole name => wholeWords name
  | call name args =>
    (.name, name) :: Symbol.word .leftParen :: wordsOfAll args ++ [Symbol.word .rightParen]
  | query f =>
    [Keyword.word (.query f), Symbol.word .leftParen, Symbol.word .rightParen]
  | unary f arg =>
    Keyword.word (.unary f) :: Symbol.word .leftParen :: arg.words ++ [Symbol.word .rightParen]
  | scaleOf arg =>
    Keyword.word (.setting .scale) :: Symbol.word .leftParen :: arg.words ++
      [Symbol.word .rightParen]
  | modexp a b c =>
    Keyword.word (.ternary .modexp) :: Symbol.word .leftParen :: a.words ++
      Symbol.word .comma :: b.words ++ Symbol.word .comma :: c.words ++ [Symbol.word .rightParen]
  | divmod a b array =>
    Keyword.word (.ternary .divmod) :: Symbol.word .leftParen :: a.words ++
      Symbol.word .comma :: b.words ++ Symbol.word .comma :: wholeWords array ++
      [Symbol.word .rightParen]
  | preStep up target => Symbol.word (stepSymbol up) :: target.words
  | postStep target up => target.words ++ [Symbol.word (stepSymbol up)]
  | trunc e => e.words ++ [Symbol.word .dollar]
  | paren e => Symbol.word .leftParen :: e.words ++ [Symbol.word .rightParen]
  | prefixed op e => op.word :: e.words
  | binary op left right => left.words ++ op.word :: right.words

/-- The words of some arguments with commas between them. -/
def wordsOfAll : List Expr → List Word
  | [] => []
  | [e] => e.words
  | e :: es => e.words ++ Symbol.word .comma :: wordsOfAll es

end

/-! ## Which expressions there are -/

/-- How tightly an expression holds together: the lower, the tighter. -/
def level : Expr → Nat
  | prefixed op _ => op.precedence
  | binary op _ _ => op.precedence
  | _ => 0

/-- A variable, an element of an array, or a setting. -/
def isTarget : Expr → Bool
  | var _ | elem _ _ | setting _ => true
  | _ => false

/-- The expression can be assigned to. -/
def isAssignable : Expr → Bool
  | paren e => e.isAssignable
  | e => e.isTarget

theorem level_of_isAssignable (h : e.isAssignable = true) : e.level = 0 := by
  cases e <;> simp_all [isAssignable, isTarget, level]

mutual

/-- The expression is one of the language; if `array`, it may be a whole array. -/
def wellFormed (array : Bool) : Expr → Bool
  | number _ | string _ | var _ | setting _ | query _ => true
  | whole _ => array
  | elem _ index => index.wellFormed false
  | call _ args => allWellFormed args
  | unary f arg => arg.wellFormed f.takesArray
  | scaleOf arg => arg.wellFormed false
  | modexp a b c => a.wellFormed false && b.wellFormed false && c.wellFormed false
  | divmod a b _ => a.wellFormed false && b.wellFormed false
  | preStep _ target | postStep target _ => target.isTarget && target.wellFormed false
  | trunc e => e.level == 0 && e.wellFormed false
  | paren e => e.wellFormed false
  | prefixed op e => op.isUnary && op.takesRight e.level && e.wellFormed false
  | binary op left right =>
    op.isBinary && op.takesLeft left.level && op.takesRight right.level &&
      (!op.isAssignment || left.isAssignable) && left.wellFormed false && right.wellFormed false

/-- Every argument is one of the language. -/
def allWellFormed : List Expr → Bool
  | [] => true
  | e :: es => e.wellFormed true && allWellFormed es

end

/-! ## The code of an expression -/

/-- The operator a step adds or subtracts one with. -/
def stepArith (up : Bool) : Arith := if up then .plus else .minus

mutual

/-- The code of an expression: operands first, then what is done with them. -/
def postorder : Expr → List Symbolic
  | number text =>
    if Compile.digits text = "0" then [.plain .zero]
    else if Compile.digits text = "1" then [.plain .one]
    else [.number (Compile.digits text)]
  | string text => [.string (Token.contents ⟨.string, text, ⟨0, 0, 0⟩⟩)]
  | var name => [.var name]
  | elem name index => index.postorder ++ [.elem name]
  | setting s => [.plain (.setting s)]
  | whole name => [.array name]
  | call name args => postorderOfAll args ++ [.call args.length name]
  | query f => [.plain (.query f)]
  | unary f arg => arg.postorder ++ [.plain f.opcode]
  | scaleOf arg => arg.postorder ++ [.plain .scaleOf]
  | modexp a b c => a.postorder ++ b.postorder ++ c.postorder ++ [.plain .modexp]
  | divmod a b array =>
    a.postorder ++ b.postorder ++
      [.plain .divmod, .plain .zero, .elem array, .plain .swap, .plain (.store none)]
  | preStep up target =>
    target.postorder ++ [.plain .one, .plain (.assign (some (stepArith up)))]
  | postStep target up => target.postorder ++ [.plain (if up then .inc else .dec)]
  | trunc e => e.postorder ++ [.plain .trunc]
  | paren e => e.postorder
  | prefixed op e => e.postorder ++ (op.opcode?.map Symbolic.plain).toList
  | binary op left right =>
    left.postorder ++ right.postorder ++ (op.opcode?.map Symbolic.plain).toList

/-- The code of some arguments in order. -/
def postorderOfAll : List Expr → List Symbolic
  | [] => []
  | e :: es => e.postorder ++ postorderOfAll es

end

/-- The words of the expression start with a parenthesis. -/
def startsWithParen (e : Expr) : Bool := e.words.head? == some (Symbol.word .leftParen)

/-- The code that leaves no value, if the expression is an assignment or a step. -/
def discarded : Expr → Option (List Symbolic)
  | binary (.assign op) left right =>
    some (left.postorder ++ right.postorder ++ [.plain (.store op)])
  | preStep up target | postStep target up =>
    some (target.postorder ++ [.plain .one, .plain (.store (some (stepArith up)))])
  | _ => none

/-- The expression assigns. -/
def isAssignment : Expr → Bool
  | binary op _ _ => op.isAssignment
  | _ => false

/-- The expression is a step `++` or `--`. -/
def isStep : Expr → Bool
  | preStep _ _ | postStep _ _ => true
  | _ => false

theorem root_of_discarded (h : e.discarded = none) : e.isAssignment = false ∧ e.isStep = false := by
  cases e with
  | binary op left right =>
    cases op <;> simp_all [discarded, isAssignment, isStep, Operator.isAssignment]
  | preStep | postStep => cases h
  | _ => exact ⟨rfl, rfl⟩

/-- The code of an expression in a context, which keeps the value, prints it, or drops it. -/
def settled (ctx : Context) (e : Expr) : List Symbolic :=
  if ctx.needsValue then
    e.postorder ++
      if ctx.printed && (e.startsWithParen || !e.isAssignment) then [.plain .print] else []
  else
    match if e.startsWithParen then none else e.discarded with
    | some code => code
    | none => e.postorder ++ [.plain (if ctx.printed then .print else .pop)]

/-! ## The words of an expression -/

/-- The word can stand inside an expression: it ends no block and no statement, and it is no error
and not the end. -/
def isInner (w : Word) : Bool :=
  !w.1.endsBlock && w.1 != .symbol .semicolon && w.1 != .newline && w.1 != .error && w.1 != .eof

@[simp] theorem isInner_operator (op : Operator) : isInner op.word = true := by
  cases op <;> rfl

@[simp] theorem isInner_symbol (s : Symbol) :
    isInner s.word = (s != .rightBrace && s != .semicolon) := by
  cases s <;> rfl

@[simp] theorem isInner_keyword (k : Keyword) : isInner k.word = (k != .elseBranch) := by
  cases k <;> rfl

@[simp] theorem isInner_name (text : String) : isInner (.name, text) = true := rfl

mutual

theorem all_words_isInner : (e : Expr) → e.words.all isInner = true
  | number _ | string _ => rfl
  | var _ | setting _ | query _ => by simp [words]
  | whole _ => by simp [words, wholeWords]
  | elem _ e | unary _ e | scaleOf e | trunc e | paren e | prefixed _ e => by
    simp [words, all_words_isInner e]
  | preStep up e | postStep e up => by
    cases up <;> simp [words, stepSymbol, all_words_isInner e]
  | call _ args => by simp [words, all_wordsOfAll_isInner args]
  | modexp a b c => by
    simp [words, all_words_isInner a, all_words_isInner b, all_words_isInner c]
  | divmod a b _ => by simp [words, wholeWords, all_words_isInner a, all_words_isInner b]
  | binary _ left right => by simp [words, all_words_isInner left, all_words_isInner right]

theorem all_wordsOfAll_isInner : (es : List Expr) → (wordsOfAll es).all isInner = true
  | [] => rfl
  | [e] => by rw [wordsOfAll, all_words_isInner e]
  | e :: e' :: es => by
    simp [wordsOfAll, all_words_isInner e, all_wordsOfAll_isInner (e' :: es)]

end

theorem words_ne_nil : (e : Expr) → e.words ≠ []
  | number _ | string _ | var _ | setting _ | query _ | elem _ _ | call _ _ | unary _ _ | scaleOf _
  | modexp _ _ _ | divmod _ _ _ | preStep _ _ | postStep _ _ | trunc _ | paren _ | prefixed _ _
  | binary _ _ _ => by simp [words]
  | whole _ => by simp [words, wholeWords]

/-- The last word of an expression. -/
def lastWord (e : Expr) : Word := e.words.getLast e.words_ne_nil

@[simp] theorem lastWord_preStep (up : Bool) (e : Expr) :
    (preStep up e).lastWord = e.lastWord := by
  simp [lastWord, words, List.getLast_cons e.words_ne_nil]

@[simp] theorem lastWord_prefixed (op : Operator) (e : Expr) :
    (prefixed op e).lastWord = e.lastWord := by
  simp [lastWord, words, List.getLast_cons e.words_ne_nil]

@[simp] theorem lastWord_binary (op : Operator) (left right : Expr) :
    (binary op left right).lastWord = right.lastWord := by
  simp [lastWord, words, List.getLast_cons right.words_ne_nil]

/-- An expression never ends in an open parenthesis. -/
theorem lastWord_ne : (e : Expr) → e.lastWord.1 ≠ .symbol .leftParen
  | number _ | string _ | var _ | setting _ | query _ | elem _ _ | call _ _ | unary _ _ | scaleOf _
  | modexp _ _ _ | divmod _ _ _ | trunc _ | paren _ => by
    simp [lastWord, words, List.getLast_cons]
  | whole _ => by simp [lastWord, words, wholeWords]
  | postStep _ up => by cases up <;> simp [lastWord, words, stepSymbol]
  | preStep _ e | prefixed _ e | binary _ _ e => by simp [lastWord_ne e]

/-- An expression never begins with a closing parenthesis or bracket. -/
theorem head?_words_ne {s : Symbol} (hs : s = .rightParen ∨ s = .rightBracket) :
    (e : Expr) → e.words.head? ≠ some s.word
  | number _ | string _ | var _ | setting _ | query _ | elem _ _ | call _ _ | unary _ _ | scaleOf _
  | modexp _ _ _ | divmod _ _ _ | paren _ => by
    rcases hs with rfl | rfl <;> simp [words, Symbol.word, Keyword.word]
  | whole _ => by simp [words, wholeWords, Symbol.word]
  | preStep up _ => by
    rcases hs with rfl | rfl <;> cases up <;> simp [words, Symbol.word, stepSymbol]
  | prefixed op _ => by
    rcases hs with rfl | rfl <;> cases op <;> simp [words, Symbol.word, Operator.word]
  | postStep e _ | trunc e | binary _ e _ => by
    have := head?_words_ne hs e
    have hne := words_ne_nil e
    cases h : e.words with
    | nil => exact absurd h hne
    | cons w ws => simp_all [words]

/-! ## Operands and arguments -/

/-- The expression is an operand: no operator, step or parenthesis stands outside its brackets. -/
def isLeaf : Expr → Bool
  | preStep _ _ | postStep _ _ | trunc _ | paren _ | prefixed _ _ | binary _ _ _ => false
  | _ => true

/-- How an operand can begin. -/
theorem exists_words_of_isLeaf (h : e.isLeaf = true) :
    ∃ w ws, e.words = w :: ws ∧ (w.1 = .string ∨ w.1 = .number ∨ w.1 = .name ∨
      ∃ k : Keyword, w.1 = .keyword k ∧ k.isOperand = true) := by
  cases e <;> simp_all [isLeaf, words, wholeWords, Keyword.isOperand]

/-- The expression is a whole array. -/
def isWhole : Expr → Bool
  | whole _ => true
  | _ => false

/-- Only a whole array depends on being allowed. -/
theorem wellFormed_of_not_isWhole {array : Bool} (h : e.wellFormed array = true)
    (hw : e.isWhole = false) : e.wellFormed false = true := by
  cases e <;> simp_all [wellFormed, isWhole]

theorem wellFormed_of_false (h : e.wellFormed false = true) (array : Bool) :
    e.wellFormed array = true := by
  cases e <;> simp_all [wellFormed]

theorem isWhole_of_wellFormed (h : e.wellFormed false = true) : e.isWhole = false := by
  cases e <;> simp_all [wellFormed, isWhole]

theorem level_of_isLeaf (h : e.isLeaf = true) : e.level = 0 := by
  cases e <;> simp_all [isLeaf, level]

theorem wordsOfAll_concat {es : List Expr} (h : es ≠ []) (e : Expr) :
    wordsOfAll (es ++ [e]) = wordsOfAll es ++ Symbol.word .comma :: e.words := by
  induction es with
  | nil => exact absurd rfl h
  | cons a es ih =>
    cases es with
    | nil => simp [wordsOfAll]
    | cons b es => simpa [wordsOfAll] using ih (by simp)

theorem postorderOfAll_concat (es : List Expr) (e : Expr) :
    postorderOfAll (es ++ [e]) = postorderOfAll es ++ e.postorder := by
  induction es with
  | nil => simp [postorderOfAll]
  | cons a es ih => simp [postorderOfAll, ih]

@[simp] theorem allWellFormed_append (es fs : List Expr) :
    allWellFormed (es ++ fs) = (allWellFormed es && allWellFormed fs) := by
  induction es with
  | nil => rfl
  | cons e es ih => simp [allWellFormed, ih, Bool.and_assoc]

end Expr

end DeskCalc
