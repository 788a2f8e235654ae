import DeskCalc.Diagnostic
import DeskCalc.Function
import DeskCalc.Options
import DeskCalc.Table

/-!
# Programs

A program has functions, the names of its variables and arrays, and its constants. All of them
are referred to by index. Function 0 is the code outside all functions and function 1 the answer
to a `read()`; they are always there. A function that is called before its definition has an entry
that is not defined yet.
-/

namespace DeskCalc

/-- A literal of the source. -/
inductive Constant
  /-- The digits of a number as they stand in the source. -/
  | number (text : String)
  /-- The inside of a string. -/
  | string (text : String)
deriving DecidableEq, Repr

/-- The text of a constant. -/
def Constant.text : Constant → String
  | number text => text
  | string text => text

/-- The tables of a program. The names of functions are looked up in an index of their own. -/
structure Store where
  main : Function := { name := "(main)", defined := true }
  /-- The answer to a `read()`. -/
  answer : Function := { name := "(read)", defined := true }
  /-- The functions the source defines or calls, from index 2 on. -/
  others : Array Function := #[]
  index : Index String := (({} : Index String).insert "(main)" 0).insert "(read)" 1
  vars : Table String := {}
  arrays : Table String := {}
  constants : Table Constant := {}
  limits : Limits := {}
deriving DecidableEq, Repr

namespace Store

/-- The tables before anything is entered. -/
def new (limits : Limits) : Store := { limits := limits }

/-- All functions in the order of their indices. -/
def functions (s : Store) : List Function := s.main :: s.answer :: s.others.toList

/-- The index of the function called `name`. -/
def findFunction? (s : Store) (name : String) : Option Nat := s.index.get? name

/-- Add a function that has only been called. -/
def pushFunction (s : Store) (name : String) : Store :=
  { s with
    others := s.others.push { name := name }
    index := s.index.insert name s.functions.length }

/-- The index of the function called `name`, which gets an entry if it has none. -/
def internFunction (s : Store) (name : String) (span : Span) : Except Diagnostic (Nat × Store) :=
  match s.findFunction? name with
  | some id => .ok (id, s)
  | none =>
    if s.functions.length < s.limits.functions then
      .ok (s.functions.length, s.pushFunction name)
    else .error ⟨.tooManyFunctions, span, some name⟩

/-- The index of a variable, which gets an entry if it has none. -/
def internVar (s : Store) (name : String) (span : Span) : Except Diagnostic (Nat × Store) :=
  match s.vars.intern? name s.limits.vars with
  | some (index, vars) => .ok (index, { s with vars := vars })
  | none => .error ⟨.tooManyVariables, span, some name⟩

/-- The index of an array, which gets an entry if it has none. -/
def internArray (s : Store) (name : String) (span : Span) : Except Diagnostic (Nat × Store) :=
  match s.arrays.intern? name s.limits.arrays with
  | some (index, arrays) => .ok (index, { s with arrays := arrays })
  | none => .error ⟨.tooManyArrays, span, some name⟩

/-- The index of a constant, which gets an entry if it has none. -/
def internConstant (s : Store) (c : Constant) (span : Span) : Except Diagnostic (Nat × Store) :=
  match s.constants.intern? c s.limits.constants with
  | some (index, constants) => .ok (index, { s with constants := constants })
  | none => .error ⟨.tooManyConstants, span, some c.text⟩

/-! ## Lists and indexes agree -/

/-- Every index knows what its table lists. -/
structure Agrees (s : Store) : Prop where
  functions : s.index.Lists (s.functions.map (·.name))
  vars : s.vars.Agrees
  arrays : s.arrays.Agrees
  constants : s.constants.Agrees

variable {s t : Store} {index : Nat} {name : String} {c : Constant} {span : Span}

theorem agrees_new (limits : Limits) : (new limits).Agrees where
  functions := (Index.lists_nil.insert rfl).insert rfl
  vars := Table.agrees_empty
  arrays := Table.agrees_empty
  constants := Table.agrees_empty

theorem Agrees.internFunction (h : s.Agrees) (ht : s.internFunction name span = .ok (index, t)) :
    t.Agrees := by
  unfold Store.internFunction at ht
  split at ht
  · cases ht
    exact h
  · next hnew =>
    split at ht
    · cases ht
      refine { h with functions := ?_ }
      simpa [pushFunction, Store.functions] using h.functions.insert hnew
    · cases ht

theorem Agrees.internVar (h : s.Agrees) (ht : s.internVar name span = .ok (index, t)) :
    t.Agrees := by
  unfold Store.internVar at ht
  split at ht
  · next hu =>
    cases ht
    exact { h with vars := h.vars.intern? hu }
  · cases ht

theorem Agrees.internArray (h : s.Agrees) (ht : s.internArray name span = .ok (index, t)) :
    t.Agrees := by
  unfold Store.internArray at ht
  split at ht
  · next hu =>
    cases ht
    exact { h with arrays := h.arrays.intern? hu }
  · cases ht

theorem Agrees.internConstant (h : s.Agrees) (ht : s.internConstant c span = .ok (index, t)) :
    t.Agrees := by
  unfold Store.internConstant at ht
  split at ht
  · next hu =>
    cases ht
    exact { h with constants := h.constants.intern? hu }
  · cases ht

end Store

/-- A program under construction. -/
structure Program extends Store where
  agrees : toStore.Agrees
deriving DecidableEq, Repr

namespace Program

/-- The index of the code outside all functions. -/
def mainId : Nat := 0

/-- The index of the answer to a `read()`. -/
def answerId : Nat := 1

/-- The program without any code. -/
def new (limits : Limits) : Program := ⟨.new limits, Store.agrees_new limits⟩

/-! ## Functions -/

/-- The function with an index. -/
def function? (p : Program) : Nat → Option Function
  | 0 => some p.main
  | 1 => some p.answer
  | id + 2 => p.others[id]?

/-- There is a function with this index. -/
def hasFunction (p : Program) (id : Nat) : Bool := id < p.others.size + 2

theorem map_name_modify (fs : List Function) (id : Nat) (f : Function → Function) :
    (fs.modify id fun g => (f g).named g.name).map (·.name) = fs.map (·.name) := by
  refine List.ext_getElem? fun i => ?_
  rw [List.getElem?_map, List.getElem?_map, List.getElem?_modify]
  cases fs[i]? with
  | none => rfl
  | some g => by_cases hi : id = i <;> simp [hi, Function.named]

/-- Change the function with an index, if there is one. It keeps its name. -/
def modifyFunction (p : Program) (f : Function → Function) : Nat → Program
  | 0 =>
    { p with
      main := (f p.main).named p.main.name
      agrees := { p.agrees with } }
  | 1 =>
    { p with
      answer := (f p.answer).named p.answer.name
      agrees := { p.agrees with } }
  | id + 2 =>
    { p with
      others := p.others.modify id fun g => (f g).named g.name
      agrees := { p.agrees with
        functions := by simpa [Store.functions, map_name_modify] using p.agrees.functions } }

/-! ## Names and constants -/

/-- Enter something in the tables, which keeps the indexes in step. -/
def enter (p : Program) (f : Store → Except Diagnostic (Nat × Store))
    (hf : ∀ {s t index}, s.Agrees → f s = .ok (index, t) → t.Agrees) :
    Except Diagnostic (Nat × Program) :=
  match h : f p.toStore with
  | .ok (index, s) => .ok (index, ⟨s, hf p.agrees h⟩)
  | .error d => .error d

/-- The index of the function called `name`, which gets an entry if it has none. -/
def internFunction (p : Program) (name : String) (span : Span) :
    Except Diagnostic (Nat × Program) :=
  p.enter (·.internFunction name span) .internFunction

/-- The index of a variable, which gets an entry if it has none. -/
def internVar (p : Program) (name : String) (span : Span) : Except Diagnostic (Nat × Program) :=
  p.enter (·.internVar name span) .internVar

/-- The index of an array, which gets an entry if it has none. -/
def internArray (p : Program) (name : String) (span : Span) : Except Diagnostic (Nat × Program) :=
  p.enter (·.internArray name span) .internArray

/-- The index of a constant, which gets an entry if it has none. -/
def internConstant (p : Program) (c : Constant) (span : Span) :
    Except Diagnostic (Nat × Program) :=
  p.enter (·.internConstant c span) .internConstant

end Program

end DeskCalc
