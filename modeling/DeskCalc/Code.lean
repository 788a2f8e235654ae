import DeskCalc.Opcode
import DeskCalc.Text.Quoted

/-!
# The code of a function

`Code` is a sequence of bytes, each with the source line it was written for, and the offset of the
instruction written last. An instruction is its byte followed by its operands. An operand is a
64-bit number of varying length: one byte that counts the bytes of the number, then those bytes,
the lowest first. Zero has no bytes of its own.
-/

namespace DeskCalc

/-- The operands are numbers below this bound. -/
def wordBound : Nat := 18446744073709551616

namespace Code

/-- The bytes of `n`, lowest first, without zeros at the end, at most `k` of them. -/
def bytesOf : Nat → Nat → List UInt8
  | 0, _ => []
  | k + 1, n => if n = 0 then [] else UInt8.ofNat n :: bytesOf k (n / 256)

/-- The number with the given bytes, lowest first. -/
def ofBytes : List UInt8 → Nat
  | [] => 0
  | b :: bs => b.toNat + 256 * ofBytes bs

/-- An operand as it is written: the number of its bytes, then the bytes. -/
def encodeIndex (value : Nat) : List UInt8 :=
  let bytes := bytesOf 8 value
  UInt8.ofNat bytes.length :: bytes

/-- Read an operand off the front of some bytes: its value, and how many bytes it takes. Of a
number of more than eight bytes the low eight count. -/
def decodeIndex : List UInt8 → Option (Nat × Nat)
  | [] => none
  | len :: bytes =>
    if len.toNat ≤ bytes.length then
      some (ofBytes (bytes.take len.toNat) % wordBound, 1 + len.toNat)
    else none

/-- Read `n` operands off the front of some bytes: their values, and how many bytes they take. -/
def decodeIndices : Nat → List UInt8 → Option (List Nat × Nat)
  | 0, _ => some ([], 0)
  | n + 1, bytes =>
    match decodeIndex bytes with
    | none => none
    | some (value, size) =>
      match decodeIndices n (bytes.drop size) with
      | none => none
      | some (values, sizes) => some (value :: values, size + sizes)

/-- An instruction as it is written: its byte, then its operands. -/
def encode (op : Opcode) (operands : List Nat) : List UInt8 :=
  op.toByte :: operands.flatMap encodeIndex

/-- Read an instruction off the front of some bytes: its operands, and how many bytes it takes. -/
def decode : List UInt8 → Option (Opcode × List Nat × Nat)
  | [] => none
  | b :: bytes =>
    match Opcode.ofByte? b with
    | none => none
    | some op =>
      match decodeIndices op.operandCount bytes with
      | none => none
      | some (operands, size) => some (op, operands, 1 + size)

end Code

/-- An instruction read from code: where it starts, and its operands. -/
structure Instruction where
  offset : Nat
  op : Opcode
  operands : List Nat
deriving DecidableEq, Repr

/-- The instructions at the front of some bytes that stand at `offset`, at most `n` of them. They
end at the first byte that is no instruction or whose operands are not all there. -/
def Code.decodeAll : Nat → Nat → List UInt8 → List Instruction
  | 0, _, _ => []
  | n + 1, offset, bytes =>
    match Code.decode bytes with
    | none => []
    | some (op, operands, size) =>
      ⟨offset, op, operands⟩ :: Code.decodeAll n (offset + size) (bytes.drop size)

/-- The code of a function. -/
structure Code where
  /-- The bytes, each with the source line it was written for. So there are as many lines as bytes,
  whatever is done to the code. -/
  cells : Array (UInt8 × Nat) := #[]
  /-- The offset of the instruction written last. -/
  lastOffset : Option Nat := none
deriving DecidableEq, Repr

namespace Code

/-- No code. -/
def empty : Code := {}

/-- The number of bytes. -/
def size (c : Code) : Nat := c.cells.size

/-- The bytes of the code. -/
def bytes (c : Code) : List UInt8 := c.cells.toList.map (·.1)

/-- The source line of every byte. -/
def lines (c : Code) : List Nat := c.cells.toList.map (·.2)

/-- The byte at an offset. -/
def byteAt? (c : Code) (offset : Nat) : Option UInt8 := c.cells[offset]?.map (·.1)

/-- The source line of the byte at an offset. -/
def lineAt? (c : Code) (offset : Nat) : Option Nat := c.cells[offset]?.map (·.2)

/-- The instruction byte at an offset. -/
def opcodeAt? (c : Code) (offset : Nat) : Option Opcode := (c.byteAt? offset).bind Opcode.ofByte?

/-- The operand at an offset, and the offset behind it. -/
def indexAt? (c : Code) (offset : Nat) : Option (Nat × Nat) :=
  (decodeIndex (c.bytes.drop offset)).map fun r => (r.1, offset + r.2)

/-- The instruction written last. -/
def lastOpcode? (c : Code) : Option Opcode := c.lastOffset.bind c.opcodeAt?

/-- Write some bytes for a source line. -/
def writeBytes (c : Code) (bytes : List UInt8) (line : Nat) : Code :=
  { c with cells := bytes.foldl (fun cells b => cells.push (b, line)) c.cells }

/-- Write an instruction byte. -/
def writeOpcode (c : Code) (op : Opcode) (line : Nat) : Code :=
  { cells := c.cells.push (op.toByte, line), lastOffset := some c.size }

/-- Write an operand. -/
def writeIndex (c : Code) (value : Nat) (line : Nat) : Code :=
  c.writeBytes (encodeIndex value) line

/-- Write an instruction with its operands. -/
def write (c : Code) (op : Opcode) (operands : List Nat) (line : Nat) : Code :=
  operands.foldl (fun c value => c.writeIndex value line) (c.writeOpcode op line)

@[simp] theorem length_bytes (c : Code) : c.bytes.length = c.size := by simp [bytes, size]

@[simp] theorem length_lines (c : Code) : c.lines.length = c.size := by simp [lines, size]

@[simp] theorem bytes_writeBytes (c : Code) (bs : List UInt8) (line : Nat) :
    (c.writeBytes bs line).bytes = c.bytes ++ bs := by
  simp [bytes, writeBytes, Function.comp_def]

@[simp] theorem bytes_writeOpcode (c : Code) (op : Opcode) (line : Nat) :
    (c.writeOpcode op line).bytes = c.bytes ++ [op.toByte] := by
  simp [bytes, writeOpcode]

@[simp] theorem bytes_writeIndex (c : Code) (value line : Nat) :
    (c.writeIndex value line).bytes = c.bytes ++ encodeIndex value :=
  bytes_writeBytes ..

/-- Writing an instruction appends its bytes. -/
@[simp] theorem bytes_write (c : Code) (op : Opcode) (operands : List Nat) (line : Nat) :
    (c.write op operands line).bytes = c.bytes ++ encode op operands := by
  have step (c : Code) : (operands.foldl (fun c value => c.writeIndex value line) c).bytes =
      c.bytes ++ operands.flatMap encodeIndex := by
    induction operands generalizing c with
    | nil => simp
    | cons value operands ih => simp [ih]
  simp [write, step, encode]

/-- Put another instruction in place of the one written last. Only an instruction without operands
can take the place, and only of `expected` at the very end of the code. -/
def replaceLast? (c : Code) (expected replacement : Opcode) : Option Code :=
  match c.lastOffset with
  | none => none
  | some offset =>
    if offset + 1 = c.size ∧ c.opcodeAt? offset = some expected ∧
        replacement.operandCount = 0 then
      some { c with cells := c.cells.modify offset fun cell => (replacement.toByte, cell.2) }
    else none

/-- The instructions of the code, up to the first byte where none can be read. -/
def instructions (c : Code) : List Instruction := decodeAll c.size 0 c.bytes

/-- The instructions of the code without their operands. -/
def opcodes (c : Code) : List Opcode := c.instructions.map (·.op)

/-- Drop everything from the offset `len` on. -/
def truncate (c : Code) (len : Nat) : Code :=
  if c.size ≤ len then c
  else
    let kept : Code := { cells := c.cells.take len }
    { kept with lastOffset := kept.instructions.getLast?.map (·.offset) }

/-- What remains of `expected` when its entries are looked for in `actual`, in order and with
others between them. -/
def unmatched : List Opcode → List Opcode → List Opcode
  | [], _ => []
  | expected, [] => expected
  | e :: expected, a :: actual =>
    if e = a then unmatched expected actual else unmatched (e :: expected) actual

/-- The complaint that the code lacks some of `expected`; `none` if they occur in order. -/
def missing? (c : Code) (expected : List Opcode) : Option String :=
  match unmatched expected c.opcodes with
  | [] => none
  | rest =>
    some ("Missing opcodes in sequence.\nExpected to find: " ++
      Text.quoteList (rest.map Opcode.mnemonic) ++
      "\nActual bytecode:  " ++ Text.quoteList (c.opcodes.map Opcode.mnemonic))

end Code

end DeskCalc
