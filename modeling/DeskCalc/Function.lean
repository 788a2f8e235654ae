import DeskCalc.Code
import DeskCalc.Label

/-!
# Functions

A function has code, the labels its jumps name, and its locals: the parameters first, then the
`auto` variables. Scalars live in one namespace, arrays and references to arrays in another.
-/

namespace DeskCalc

/-- How a local is bound. -/
inductive LocalKind
  | scalar
  /-- An array that is copied. -/
  | array
  /-- An array that is shared with the caller. -/
  | reference
deriving DecidableEq, Repr

/-- Arrays and references share one namespace. -/
def LocalKind.isArray : LocalKind → Bool
  | scalar => false
  | array | reference => true

/-- A parameter or `auto` variable: its index in the names of its namespace, and its kind. -/
structure Local where
  index : Nat
  kind : LocalKind
deriving DecidableEq, Repr

/-- Two locals have the same name in the same namespace. -/
def Local.clashes (a b : Local) : Bool := a.index == b.index && a.kind.isArray == b.kind.isArray

/-- A function of a program. -/
structure Function where
  name : String
  code : Code := {}
  labels : LabelTable := {}
  /-- The parameters, then the `auto` variables. -/
  locals : List Local := []
  nparams : Nat := 0
  /-- The function has no value. -/
  isVoid : Bool := false
  /-- There is a definition; otherwise the function has only been called. -/
  defined : Bool := false
deriving DecidableEq, Repr

namespace Function

/-- Forget the body and the signature. -/
def clear (f : Function) : Function := { name := f.name, defined := f.defined }

/-- The function under another name. -/
def named (f : Function) (name : String) : Function := { f with name := name }

@[simp] theorem named_eq {f : Function} {name : String} (h : f.name = name) :
    f.named name = f := by
  subst h
  rfl

/-- The parameters. -/
def params (f : Function) : List Local := f.locals.take f.nparams

/-- The `auto` variables. -/
def autos (f : Function) : List Local := f.locals.drop f.nparams

/-- Add a local; `none` if its name is taken. -/
def insertLocal? (f : Function) (l : Local) : Option Function :=
  if f.locals.any l.clashes then none else some { f with locals := f.locals ++ [l] }

end Function

end DeskCalc
