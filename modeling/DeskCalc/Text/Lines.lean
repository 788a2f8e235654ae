/-!
# The lines of a text

A line ends at a line feed. A carriage return right before that line feed belongs to the line's
end, and nothing follows the last line feed of a text unless it is there.
-/

namespace DeskCalc.Text

/-- Drop the carriage return that ends a line, the line being given backwards. -/
def dropReturn : List Char → List Char
  | '\r' :: line => line
  | line => line

/-- The lines of `cs`, where `line` holds, backwards, what has been read of the current one. -/
def linesFrom : List Char → List Char → List (List Char)
  | [], [] => []
  | [], line => [line.reverse]
  | c :: cs, line =>
    if c = '\n' then (dropReturn line).reverse :: linesFrom cs [] else linesFrom cs (c :: line)

/-- The lines of a text, without their ends. -/
def lines (text : String) : List String :=
  (linesFrom text.toList []).map String.ofList

/-- A text moved to the right by copies of `fill` until it is `width` characters long. -/
def padLeft (width : Nat) (fill : Char) (text : String) : String :=
  String.ofList (List.replicate (width - text.length) fill) ++ text

theorem linesFrom_append {cs : List Char} (h : '\n' ∉ cs) (rest line : List Char) :
    linesFrom (cs ++ rest) line = linesFrom rest (cs.reverse ++ line) := by
  induction cs generalizing line with
  | nil => rfl
  | cons c cs ih =>
    rw [List.mem_cons, not_or] at h
    rw [List.cons_append, linesFrom, if_neg (Ne.symm h.1), ih h.2, List.reverse_cons,
      List.append_assoc]
    rfl

end DeskCalc.Text
