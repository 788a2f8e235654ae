/-!
# Places in a source text

A `Span` is where a token or a complaint stands: the line and the column of its first byte, both
counted from one, and its length. Columns and lengths count bytes of the UTF-8 text.
-/

namespace DeskCalc

/-- The line and column of the first byte of a piece of source, and its length in bytes. -/
structure Span where
  line : Nat
  col : Nat
  len : Nat
deriving DecidableEq, Repr, Inhabited

namespace Span

/-- The span of length zero at a place. -/
def point (line col : Nat) : Span := ⟨line, col, 0⟩

/-- Nothing lies in the span. -/
def isEmpty (s : Span) : Bool := s.len == 0

/-- A span is written as `line:column` of its first byte. -/
def text (s : Span) : String := s!"{s.line}:{s.col}"

end Span

end DeskCalc
