/-!
# Options of a session

How strictly POSIX is kept, and how large the tables of a program may grow.
-/

namespace DeskCalc

/-- What happens to constructs that POSIX `bc` does not have. -/
inductive Strictness
  /-- They are accepted. -/
  | lenient
  /-- They are accepted and a warning is recorded. -/
  | warn
  /-- They are refused. -/
  | strict
deriving DecidableEq, Repr

/-- How many entries each table of a program may have. -/
structure Limits where
  vars : Nat := 4294967295
  arrays : Nat := 4294967295
  /-- The main code and the answer to `read()` count as functions. -/
  functions : Nat := 4294967295
  constants : Nat := 4294967295
deriving DecidableEq, Repr

/-- The options of a session. -/
structure Options where
  strictness : Strictness := .lenient
  limits : Limits := {}
deriving DecidableEq, Repr

end DeskCalc
