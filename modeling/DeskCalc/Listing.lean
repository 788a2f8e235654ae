import DeskCalc.Program

/-!
# Listings

A listing shows the code of a function, one instruction a line, with its offset, its source line
and its operands by name. The labels that are known stand on lines of their own before the
instruction they point at, or at the end.
-/

namespace DeskCalc.Listing

/-- Show an entry of a table, or a question mark if it is not there. -/
def nameOr (name : Option String) : String := name.getD "?"

/-- How the operands of an instruction are shown. -/
def operandText (p : Program) (i : Instruction) : String :=
  let operand (n : Nat) : Nat := i.operands.getD n 0
  match i.op with
  | .num | .str => " " ++ Text.quote (nameOr ((p.constants.get? (operand 0)).map Constant.text))
  | .var => " " ++ nameOr (p.vars.get? (operand 0))
  | .elem | .array => " " ++ nameOr (p.arrays.get? (operand 0)) ++ "[]"
  | .jump | .jumpZero => " L" ++ toString (operand 0)
  | .call =>
    " " ++ nameOr ((p.function? (operand 1)).map (·.name)) ++ "/" ++ toString (operand 0)
  | _ => ""

/-- The indices of the labels that point at an offset. -/
def labelsAt (f : Function) (offset : Nat) : List Nat :=
  (f.labels.labels.toList.zipIdx.filter fun l => l.1 = .known offset).map (·.2)

/-- The lines of the labels that point at an offset. -/
def markers (f : Function) (offset : Nat) : List String :=
  (labelsAt f offset).map fun index => s!"L{index}:"

/-- The line of an instruction. -/
def instructionLine (p : Program) (f : Function) (i : Instruction) : String :=
  Text.padLeft 4 '0' (toString i.offset) ++ " " ++
    Text.padLeft 4 ' ' (toString ((f.code.lineAt? i.offset).getD 0)) ++ " " ++
    i.op.mnemonic ++ operandText p i

/-- The lines of the listing of a function. -/
def functionLines (p : Program) (f : Function) : List String :=
  ("== " ++ f.name ++ " ==") ::
    (f.code.instructions.flatMap fun i => markers f i.offset ++ [instructionLine p f i]) ++
    markers f f.code.size

end DeskCalc.Listing

namespace DeskCalc

/-- The listing of a function of a program. -/
def Function.listing (f : Function) (p : Program) : String :=
  String.join ((Listing.functionLines p f).map (· ++ "\n"))

/-- The listings of the main code and of all functions that are defined. -/
def Program.listing (p : Program) : String :=
  String.join ((p.main :: (p.answer :: p.others.toList).filter (·.defined)).map (·.listing p))

end DeskCalc
