import DeskCalc.Diagnostic
import DeskCalc.Token

/-!
# Cutting a text into pieces

`scan` cuts a source text into tokens, comments and pieces that are no token at all, each with its
place. Blanks lie between the pieces: spaces, tabs, carriage returns, vertical tabs, form feeds,
and a backslash right before the end of a line. How strictly POSIX is kept plays no part here. A
piece only records which rule it does not keep.

Every cutting function returns the characters taken and the characters left, so that the one
followed by the other is the text it was given. For a piece this is `cut_append`, and
`cut_taken_ne_nil` says that a piece takes at least one character.
-/

namespace DeskCalc

/-- Why a piece of text is refused, or warned about. -/
inductive Flaw
  | unexpectedChar (c : Char)
  | unterminatedString
  | unterminatedComment
  /-- The text does not keep a rule of POSIX. -/
  | posix (violation : Violation) (text : String)
deriving DecidableEq, Repr

/-- A flaw and the place where it was found. -/
structure Notice where
  flaw : Flaw
  span : Span
deriving DecidableEq, Repr

namespace Notice

/-- The text of a notice. -/
def message (n : Notice) : String :=
  match n.flaw with
  | .unexpectedChar c => "unexpected character '" ++ c.toString ++ "' at " ++ n.span.text
  | .unterminatedString => "unterminated string at " ++ n.span.text
  | .unterminatedComment => "unterminated comment at " ++ n.span.text
  | .posix violation text => violation.message ++ " at " ++ n.span.text ++ ": " ++ text

/-- The complaint the compiler makes of a notice. -/
def toDiagnostic (n : Notice) : Diagnostic :=
  match n.flaw with
  | .unexpectedChar c => ⟨.unexpectedChar, n.span, some c.toString⟩
  | .unterminatedString => ⟨.unterminatedString, n.span, none⟩
  | .unterminatedComment => ⟨.unterminatedComment, n.span, none⟩
  | .posix violation text => ⟨.posix violation, n.span, some text⟩

end Notice

namespace Scan

/-! ## Places -/

/-- A place between two characters: its line, and its column in bytes, both counted from one. -/
structure Position where
  line : Nat
  col : Nat
deriving DecidableEq, Repr

/-- The place after one more character. -/
def Position.step (p : Position) (c : Char) : Position :=
  if c = '\n' then ⟨p.line + 1, 1⟩ else ⟨p.line, p.col + c.utf8Size⟩

/-- The place after the characters `cs`. -/
def Position.through (p : Position) (cs : List Char) : Position := cs.foldl Position.step p

/-- The number of bytes of a text. -/
def byteLength : List Char → Nat
  | [] => 0
  | c :: cs => c.utf8Size + byteLength cs

/-- The span of the text `cs` at a place. -/
def Position.span (p : Position) (cs : List Char) : Span := ⟨p.line, p.col, byteLength cs⟩

/-! ## Characters -/

/-- A blank that is not the end of a line. -/
def isBlank (c : Char) : Bool :=
  c = ' ' || c = '\t' || c = '\r' || c = '\x0b' || c = '\x0c'

/-- A digit of a number in some base up to 36. -/
def isDigit (c : Char) : Bool := ('0' ≤ c && c ≤ '9') || ('A' ≤ c && c ≤ 'Z')

/-- A character that can start a name. -/
def isNameStart (c : Char) : Bool := 'a' ≤ c && c ≤ 'z'

/-- A character that can continue a name. -/
def isNameChar (c : Char) : Bool := isNameStart c || ('0' ≤ c && c ≤ '9') || c = '_'

/-- A number goes on behind the end of a line with one of these. -/
def continuesNumber (c : Char) : Bool := isDigit c || c = '.'

/-! ## Cutting off what stands first -/

/-- Put the characters `front` before the characters taken. -/
def takeAlso (front : List Char) (parts : List Char × List Char) : List Char × List Char :=
  (front ++ parts.1, parts.2)

/-- Cut off the blanks and continued line ends. -/
def splitBlanks : List Char → List Char × List Char
  | '\\' :: '\n' :: cs => takeAlso ['\\', '\n'] (splitBlanks cs)
  | '\\' :: '\r' :: '\n' :: cs => takeAlso ['\\', '\r', '\n'] (splitBlanks cs)
  | c :: cs => if isBlank c then takeAlso [c] (splitBlanks cs) else ([], c :: cs)
  | [] => ([], [])

/-- Cut off the digits of a number, with every continued line end behind which it goes on. -/
def splitDigits : List Char → List Char × List Char
  | '\\' :: '\n' :: cs =>
    if cs.head?.any continuesNumber then takeAlso ['\\', '\n'] (splitDigits cs)
    else ([], '\\' :: '\n' :: cs)
  | '\\' :: '\r' :: '\n' :: cs =>
    if cs.head?.any continuesNumber then takeAlso ['\\', '\r', '\n'] (splitDigits cs)
    else ([], '\\' :: '\r' :: '\n' :: cs)
  | c :: cs => if isDigit c then takeAlso [c] (splitDigits cs) else ([], c :: cs)
  | [] => ([], [])

/-- Cut off a number: digits, and at most one point with digits behind it. -/
def splitNumber (cs : List Char) : List Char × List Char :=
  match splitDigits cs with
  | (whole, '.' :: rest) => takeAlso (whole ++ ['.']) (splitDigits rest)
  | parts => parts

/-- Cut off the inside and the end of a block comment; `none` if it has no end. -/
def splitComment : List Char → Option (List Char × List Char)
  | '*' :: '/' :: cs => some (['*', '/'], cs)
  | c :: cs => (splitComment cs).map (takeAlso [c])
  | [] => none

/-- What a piece of text is. -/
inductive Shape
  /-- A token, with the rule of POSIX it does not keep. -/
  | token (kind : Token.Kind) (violation : Option Violation)
  /-- A comment, with the rule of POSIX it does not keep. -/
  | comment (violation : Option Violation)
  /-- No token at all. -/
  | broken (flaw : Flaw)
deriving DecidableEq, Repr

/-- A piece cut off a text, and what is left. -/
structure Cut where
  shape : Shape
  taken : List Char
  rest : List Char

/-- The word `name` is a keyword or, failing that, a name. -/
def wordShape (name : String) : Shape :=
  match Keyword.ofName? name with
  | some k => .token (.keyword k) (if k.isPosix then none else some .keyword)
  | none => .token .name (if name.length > 1 then some .nameLength else none)

/-- Cut off a string, whose opening quote has been taken. -/
def cutString (cs : List Char) : Cut :=
  let inside := cs.takeWhile (· ≠ '"')
  match cs.dropWhile (· ≠ '"') with
  | '"' :: rest => ⟨.token .string none, '"' :: inside ++ ['"'], rest⟩
  | rest => ⟨.broken .unterminatedString, '"' :: inside, rest⟩

/-- Cut off a symbol or a block comment. -/
def cutSymbol (c : Char) (cs : List Char) : Cut :=
  match c, cs with
  | '/', '*' :: inside =>
    match splitComment inside with
    | some (taken, rest) => ⟨.comment none, '/' :: '*' :: taken, rest⟩
    | none => ⟨.broken .unterminatedComment, '/' :: '*' :: inside, []⟩
  | _, _ =>
    match Symbol.all.find? fun s => s.spelling.toList.isPrefixOf (c :: cs) with
    | some s =>
      let n := s.spelling.toList.length
      ⟨.token (.symbol s) (if s.isExtension then some .operator else none),
        (c :: cs).take n, (c :: cs).drop n⟩
    | none => ⟨.broken (.unexpectedChar c), [c], cs⟩

/-- Cut off the first piece of a text that does not start with a blank; `none` at its end. -/
def cut : List Char → Option Cut
  | [] => none
  | c :: cs =>
    if c = '\n' then some ⟨.token .newline none, [c], cs⟩
    else if c = '#' then
      some ⟨.comment (some .hashComment), c :: cs.takeWhile (· ≠ '\n'), cs.dropWhile (· ≠ '\n')⟩
    else if c = '"' then some (cutString cs)
    else if isDigit c || (c = '.' && cs.head?.any isDigit) then
      let parts := splitNumber (c :: cs)
      some ⟨.token .number none, parts.1, parts.2⟩
    else if c = '.' then some ⟨.token (.keyword (.setting .last)) (some .dotLast), [c], cs⟩
    else if isNameStart c then
      let word := c :: cs.takeWhile isNameChar
      some ⟨wordShape (String.ofList word), word, cs.dropWhile isNameChar⟩
    else some (cutSymbol c cs)

/-! ## Nothing is lost -/

theorem splitBlanks_append (cs : List Char) :
    (splitBlanks cs).1 ++ (splitBlanks cs).2 = cs := by
  fun_induction splitBlanks cs <;> simp_all [takeAlso]

theorem splitDigits_append (cs : List Char) :
    (splitDigits cs).1 ++ (splitDigits cs).2 = cs := by
  fun_induction splitDigits cs <;> simp_all [takeAlso]

theorem splitNumber_append (cs : List Char) :
    (splitNumber cs).1 ++ (splitNumber cs).2 = cs := by
  have h := splitDigits_append cs
  unfold splitNumber
  split
  · next hs =>
    rw [hs] at h
    simp [takeAlso, splitDigits_append, ← h]
  · exact h

theorem splitComment_append {cs taken rest : List Char}
    (h : splitComment cs = some (taken, rest)) : taken ++ rest = cs := by
  fun_induction splitComment cs generalizing taken with
  | case1 cs =>
    cases h
    rfl
  | case2 c cs _ ih =>
    obtain ⟨parts, hparts, hp⟩ := Option.map_eq_some_iff.1 h
    cases hp
    simpa [takeAlso] using ih hparts
  | case3 => simp at h

theorem cutString_append (cs : List Char) :
    (cutString cs).taken ++ (cutString cs).rest = '"' :: cs := by
  unfold cutString
  split
  · next h =>
    simp only [List.cons_append, List.append_assoc, List.nil_append, ← h]
    rw [List.takeWhile_append_dropWhile]
  · simp [List.takeWhile_append_dropWhile]

theorem cutSymbol_append (c : Char) (cs : List Char) :
    (cutSymbol c cs).taken ++ (cutSymbol c cs).rest = c :: cs := by
  unfold cutSymbol
  split
  · split
    · next h => simp [splitComment_append h]
    · simp
  · split <;> simp

/-- A piece followed by what is left of the text is the text. -/
theorem cut_append {cs : List Char} {p : Cut} (h : cut cs = some p) : p.taken ++ p.rest = cs := by
  cases cs with
  | nil => simp [cut] at h
  | cons c cs =>
    simp only [cut] at h
    repeat' split at h
    all_goals cases h
    · simp
    · simp [List.takeWhile_append_dropWhile]
    · simp_all [cutString_append]
    · exact splitNumber_append _
    · simp
    · simp [List.takeWhile_append_dropWhile]
    · exact cutSymbol_append c cs

/-! ## Every piece takes something -/

theorem splitDigits_cons {c : Char} (h : isDigit c = true) (cs : List Char) :
    splitDigits (c :: cs) = takeAlso [c] (splitDigits cs) := by
  rw [splitDigits]
  · simp [h]
  · rintro _ rfl
    simp [isDigit] at h
  · rintro _ rfl
    simp [isDigit] at h

/-- A number that starts with a digit or a point is not empty. -/
theorem splitNumber_ne_nil {c : Char} (h : continuesNumber c = true) (cs : List Char) :
    (splitNumber (c :: cs)).1 ≠ [] := by
  simp only [continuesNumber, Bool.or_eq_true, decide_eq_true_eq] at h
  unfold splitNumber
  rcases h with h | rfl
  · rw [splitDigits_cons h]
    split <;> simp [takeAlso]
  · have hp : splitDigits ('.' :: cs) = ([], '.' :: cs) := by
      rw [splitDigits] <;> simp [isDigit]
    simp [hp, takeAlso]

theorem cutSymbol_taken_ne_nil (c : Char) (cs : List Char) : (cutSymbol c cs).taken ≠ [] := by
  unfold cutSymbol
  split
  · split <;> simp
  · split
    · next s _ => simp [Symbol.spelling_ne_nil s]
    · simp

/-- A piece is never empty. -/
theorem cut_taken_ne_nil {cs : List Char} {p : Cut} (h : cut cs = some p) : p.taken ≠ [] := by
  cases cs with
  | nil => simp [cut] at h
  | cons c cs =>
    simp only [cut] at h
    repeat' split at h
    all_goals cases h
    · simp
    · simp
    · unfold cutString
      split <;> simp
    · exact splitNumber_ne_nil (by grind [continuesNumber]) cs
    · simp
    · simp
    · exact cutSymbol_taken_ne_nil c cs

/-- What is left behind a piece is shorter than the text. -/
theorem length_rest_lt {cs : List Char} {p : Cut} (h : cut cs = some p) :
    p.rest.length < cs.length := by
  have hne := List.length_pos_iff.2 (cut_taken_ne_nil h)
  rw [← cut_append h, List.length_append]
  omega

/-! ## The whole text -/

/-- A piece of the source: what it is, its text, and its place. -/
structure Piece where
  shape : Shape
  text : String
  span : Span
deriving DecidableEq, Repr

/-- The end of the text, at a place. -/
def endPiece (p : Position) : Piece := ⟨.token .eof none, "", p.span []⟩

/-- The pieces of `cs`, which stands at `p`, at most `n` of them before the end. -/
def scanFrom : Nat → Position → List Char → List Piece
  | 0, p, _ => [endPiece p]
  | n + 1, p, cs =>
    let (blanks, text) := splitBlanks cs
    let start := p.through blanks
    match cut text with
    | none => [endPiece start]
    | some c =>
      ⟨c.shape, String.ofList c.taken, start.span c.taken⟩ ::
        scanFrom n (start.through c.taken) c.rest

end Scan

/-- The pieces of a source text in order, the last one being its end. There are never more pieces
than characters before the end. -/
def scan (source : String) : List Scan.Piece :=
  let cs := source.toList
  Scan.scanFrom (cs.length + 1) ⟨1, 1⟩ cs

end DeskCalc
