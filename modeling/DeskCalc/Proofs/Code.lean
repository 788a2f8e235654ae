import DeskCalc.Code
import Mathlib.Algebra.GroupWithZero.Nat

/-!
# Code as a sequence of instructions

`c.Writes is d` says that the code `d` is the code `c` with the instructions `is` behind it, and
`c.Holds is` that `c` consists of `is` alone. Code that is written this way can be read back
(`Holds.instructions_eq`), and cutting it at an earlier end takes back what was written since
(`Holds.truncate_eq`). So an earlier end is always a place where an instruction starts, or the
end (`Holds.boundary`).

An operand is written with at most eight bytes, so that it is read back modulo `wordBound`.
-/

namespace DeskCalc

/-- An instruction apart from its place: what it does, and its operands. -/
abbrev Command := Opcode × List Nat

namespace Opcode

theorem index_lt (op : Opcode) : op.index < 84 :=
  (List.getElem?_eq_some_iff.1 (all_getElem?_index op)).1

/-- An instruction can be read back from its byte. -/
@[simp] theorem ofByte?_toByte (op : Opcode) : ofByte? op.toByte = some op := by
  have h : op.toByte.toNat = op.index := by
    have := index_lt op
    rw [toByte, UInt8.toNat_ofNat']
    omega
  rw [ofByte?, h, all_getElem?_index]

end Opcode

namespace Code

variable {is : List Command} {c d : Code} {op : Opcode} {operands : List Nat}

/-! ## Reading back what was written -/

theorem length_bytesOf_le (k n : Nat) : (bytesOf k n).length ≤ k := by
  induction k generalizing n with
  | zero => simp [bytesOf]
  | succ k ih =>
    rw [bytesOf]
    split
    · simp
    · have := ih (n / 256)
      simp only [List.length_cons]
      omega

theorem ofBytes_bytesOf (k n : Nat) : ofBytes (bytesOf k n) = n % 256 ^ k := by
  induction k generalizing n with
  | zero => simp [bytesOf, ofBytes, Nat.mod_one]
  | succ k ih =>
    rw [bytesOf]
    split
    · next h => simp [ofBytes, h]
    · rw [ofBytes, ih, UInt8.toNat_ofNat', Nat.pow_succ 256 k, Nat.mul_comm (256 ^ k), Nat.mod_mul]

/-- An operand is read back modulo `wordBound`, whatever follows it. -/
theorem decodeIndex_encodeIndex (value : Nat) (rest : List UInt8) :
    decodeIndex (encodeIndex value ++ rest) =
      some (value % wordBound, (encodeIndex value).length) := by
  have hlen := length_bytesOf_le 8 value
  have hbyte : (UInt8.ofNat (bytesOf 8 value).length).toNat = (bytesOf 8 value).length := by
    rw [UInt8.toNat_ofNat']
    omega
  simp only [encodeIndex, List.cons_append, decodeIndex, hbyte, List.length_append,
    Nat.le_add_right, if_true, List.take_left, ofBytes_bytesOf, List.length_cons]
  rw [show (256 : Nat) ^ 8 = wordBound from rfl, Nat.mod_mod, Nat.add_comm]

theorem decodeIndices_encode (operands : List Nat) (rest : List UInt8) :
    decodeIndices operands.length (operands.flatMap encodeIndex ++ rest) =
      some (operands.map (· % wordBound), (operands.flatMap encodeIndex).length) := by
  induction operands with
  | nil => simp [decodeIndices]
  | cons value operands ih =>
    simp only [List.flatMap_cons, List.append_assoc, List.length_cons, decodeIndices,
      decodeIndex_encodeIndex, List.drop_left, ih, List.map_cons, List.length_append]

/-- An instruction with the right number of operands is read back, whatever follows it. -/
theorem decode_encode (h : operands.length = op.operandCount) (rest : List UInt8) :
    decode (encode op operands ++ rest) =
      some (op, operands.map (· % wordBound), (encode op operands).length) := by
  simp only [encode, List.cons_append, decode, Opcode.ofByte?_toByte, ← h, decodeIndices_encode,
    List.length_cons]
  rw [Nat.add_comm]

/-- The bytes of some instructions. -/
def encodeAll (is : List Command) : List UInt8 := is.flatMap fun i => encode i.1 i.2

@[simp] theorem encodeAll_nil : encodeAll [] = [] := rfl

@[simp] theorem encodeAll_append (is js : List Command) :
    encodeAll (is ++ js) = encodeAll is ++ encodeAll js := by
  simp [encodeAll]

@[simp] theorem encodeAll_cons (op : Opcode) (operands : List Nat) (is : List Command) :
    encodeAll ((op, operands) :: is) = encode op operands ++ encodeAll is := by
  simp [encodeAll]

theorem length_le_encodeAll (is : List Command) : is.length ≤ (encodeAll is).length := by
  induction is with
  | nil => simp
  | cons i is ih =>
    obtain ⟨op, operands⟩ := i
    simp only [List.length_cons, encodeAll_cons, List.length_append, encode]
    omega

/-- The instructions `is` as they are read from an offset on. -/
def located : Nat → List Command → List Instruction
  | _, [] => []
  | offset, (op, operands) :: is =>
    ⟨offset, op, operands.map (· % wordBound)⟩ ::
      located (offset + (encode op operands).length) is

theorem located_append (offset : Nat) (is js : List Command) :
    located offset (is ++ js) =
      located offset is ++ located (offset + (encodeAll is).length) js := by
  induction is generalizing offset with
  | nil => simp [located]
  | cons i is ih =>
    obtain ⟨op, operands⟩ := i
    simp [located, ih, Nat.add_assoc]

theorem decodeAll_encodeAll (h : ∀ i ∈ is, i.2.length = i.1.operandCount) {n : Nat}
    (hn : is.length ≤ n) (offset : Nat) : decodeAll n offset (encodeAll is) = located offset is := by
  induction is generalizing n offset with
  | nil => cases n <;> simp [decodeAll, decode, located]
  | cons i is ih =>
    obtain ⟨op, operands⟩ := i
    obtain ⟨m, rfl⟩ : ∃ m, n = m + 1 := ⟨n - 1, by simp at hn; omega⟩
    have hi : operands.length = op.operandCount := h (op, operands) (by simp)
    have hrest := ih (fun i hi => h i (List.mem_cons_of_mem _ hi)) (by simpa using hn)
    simp only [encodeAll_cons, decodeAll, decode_encode hi, List.drop_left, located, hrest]

/-! ## Writing -/

/-- Writing the instructions `is` behind the code `c` gives the third code. -/
inductive Writes (c : Code) : List Command → Code → Prop
  | nil : Writes c [] c
  | snoc {is : List Command} {d : Code} (h : Writes c is d) {op : Opcode} {operands : List Nat}
      (hop : operands.length = op.operandCount) (line : Nat) :
      Writes c (is ++ [(op, operands)]) (d.write op operands line)

theorem Writes.single (c : Code) (hop : operands.length = op.operandCount) (line : Nat) :
    c.Writes [(op, operands)] (c.write op operands line) :=
  .snoc .nil hop line

theorem Writes.trans {e : Code} {js : List Command} (h : c.Writes is d) (h' : d.Writes js e) :
    c.Writes (is ++ js) e := by
  induction h' with
  | nil => simpa using h
  | snoc _ hop line ih =>
    rw [← List.append_assoc]
    exact .snoc ih hop line

/-- What was written last can be told apart. -/
theorem Writes.of_snoc (h : c.Writes (is ++ [(op, operands)]) d) :
    ∃ c' line, c.Writes is c' ∧ operands.length = op.operandCount ∧
      d = c'.write op operands line := by
  generalize hjs : is ++ [(op, operands)] = js at h
  cases h with
  | nil => simp at hjs
  | snoc h hop line =>
    obtain ⟨rfl, hi⟩ := List.append_inj' hjs rfl
    cases hi
    exact ⟨_, line, h, hop, rfl⟩

theorem Writes.bytes_eq (h : c.Writes is d) : d.bytes = c.bytes ++ encodeAll is := by
  induction h with
  | nil => simp
  | snoc _ _ _ ih => simp [ih]

theorem Writes.size_eq (h : c.Writes is d) : d.size = c.size + (encodeAll is).length := by
  rw [← length_bytes, h.bytes_eq, List.length_append, length_bytes]

theorem Writes.operands_length (h : c.Writes is d) : ∀ i ∈ is, i.2.length = i.1.operandCount := by
  induction h with
  | nil => simp
  | snoc _ hop _ ih =>
    intro i hi
    rcases List.mem_append.1 hi with hi | hi
    · exact ih i hi
    · cases List.mem_singleton.1 hi
      exact hop

theorem write_eq (c : Code) (op : Opcode) (operands : List Nat) (line : Nat) :
    c.write op operands line =
      { cells := c.cells ++ ((encode op operands).map fun b => (b, line)).toArray
        lastOffset := some c.size } := by
  have bytes (d : Code) (bs : List UInt8) : d.writeBytes bs line =
      { d with cells := d.cells ++ (bs.map fun b => (b, line)).toArray } := by
    simp [writeBytes]
  have step (d : Code) : operands.foldl (fun c value => c.writeIndex value line) d =
      { d with
        cells := d.cells ++ ((operands.flatMap encodeIndex).map fun b => (b, line)).toArray } := by
    induction operands generalizing d with
    | nil => simp
    | cons value operands ih =>
      rw [List.foldl_cons, ih, writeIndex, bytes]
      simp
  rw [write, step]
  simp [writeOpcode, encode]

@[simp] theorem lastOffset_write (c : Code) (op : Opcode) (operands : List Nat) (line : Nat) :
    (c.write op operands line).lastOffset = some c.size := by
  rw [write_eq]

theorem Writes.prefix_cells (h : c.Writes is d) : c.cells.toList <+: d.cells.toList := by
  induction h with
  | nil => exact List.prefix_rfl
  | snoc _ _ _ ih =>
    refine ih.trans ?_
    rw [write_eq]
    simp

/-! ## Replacing the instruction written last -/

/-- The code ends in the instruction written last. -/
@[simp] theorem lastOpcode?_write (c : Code) (op : Opcode) (operands : List Nat) (line : Nat) :
    (c.write op operands line).lastOpcode? = some op := by
  rw [lastOpcode?, lastOffset_write, write_eq]
  simp [opcodeAt?, byteAt?, encode, size]

/-- An instruction without operands that was written last can give way to another one. -/
theorem replaceLast?_write (c : Code) {op' : Opcode} (hop : op'.operandCount = 0) (line : Nat) :
    (c.write op [] line).replaceLast? op op' = some (c.write op' [] line) := by
  have hlast : (c.write op [] line).opcodeAt? c.size = some op := by
    simpa [lastOpcode?] using lastOpcode?_write c op [] line
  have hsize : c.size + 1 = (c.write op [] line).size := by
    simp [write_eq, size, encode]
  simp only [replaceLast?, lastOffset_write, hlast, hsize, hop, and_self, if_true]
  simp only [write_eq, encode, size, List.flatMap_nil, List.map_cons, List.map_nil,
    Option.some.injEq, Code.mk.injEq, and_true]
  apply Array.ext_getElem?
  intro i
  grind

/-! ## Code made of instructions -/

/-- The code consists of the instructions `is`. -/
def Holds (c : Code) (is : List Command) : Prop := empty.Writes is c

namespace Holds

variable {c d : Code} {is js : List Command}

theorem empty_nil : empty.Holds [] := .nil

theorem bytes_eq (h : c.Holds is) : c.bytes = encodeAll is := by
  simpa [empty, bytes] using Writes.bytes_eq h

theorem size_eq (h : c.Holds is) : c.size = (encodeAll is).length := by
  simpa [empty, size] using Writes.size_eq h

theorem writes (h : c.Holds is) (h' : c.Writes js d) : d.Holds (is ++ js) := Writes.trans h h'

/-- The instructions of the code are the ones that were written. -/
theorem instructions_eq (h : c.Holds is) : c.instructions = located 0 is := by
  rw [instructions, h.bytes_eq]
  exact decodeAll_encodeAll (Writes.operands_length h) (h.size_eq ▸ length_le_encodeAll is) 0

/-- Writing an instruction adds it to those that are read. -/
theorem instructions_write {op : Opcode} {operands : List Nat} {line : Nat} (h : c.Holds is)
    (hop : operands.length = op.operandCount) : (c.write op operands line).instructions =
      c.instructions ++ [⟨c.size, op, operands.map (· % wordBound)⟩] := by
  rw [(h.writes (.single c hop line)).instructions_eq, h.instructions_eq, located_append, h.size_eq,
    Nat.zero_add]
  rfl

/-- What is known of the last instruction agrees with what is read. -/
theorem last_eq (h : c.Holds is) : c.lastOffset = c.instructions.getLast?.map (·.offset) ∧
    c.lastOpcode? = c.instructions.getLast?.map (·.op) := by
  unfold Holds at h
  cases h with
  | nil => exact ⟨rfl, rfl⟩
  | snoc h hop line =>
    rw [lastOpcode?_write, Holds.instructions_write h hop]
    simp

/-- An earlier end of the code is where an instruction starts, or it is still the end. -/
theorem boundary (h : d.Holds is) (h' : d.Writes js c) :
    d.size ∈ c.instructions.map (·.offset) ∨ d.size = c.size := by
  cases js with
  | nil =>
    have := h'.size_eq
    simp at this
    exact .inr this.symm
  | cons j js =>
    obtain ⟨op, operands⟩ := j
    left
    rw [(h.writes h').instructions_eq, located_append, h.size_eq]
    simp [located]

/-- Cutting the code at an earlier end takes back what was written since. -/
theorem truncate_eq (h : d.Holds is) (h' : d.Writes js c) : c.truncate d.size = d := by
  have hsize := h'.size_eq
  have hcells : c.cells.take d.size = d.cells := by
    apply Array.toList_inj.1
    rw [size, ← Array.length_toList, Array.take_eq_extract, Array.toList_extract]
    simp
    exact (List.prefix_iff_eq_take.1 h'.prefix_cells).symm
  rw [truncate]
  split
  · next hle =>
    -- nothing was written: an instruction has at least one byte
    have := length_le_encodeAll js
    obtain rfl : js = [] := List.eq_nil_of_length_eq_zero (by omega)
    generalize hjs : ([] : List Command) = ks at h'
    cases h' with
    | nil => rfl
    | snoc => simp at hjs
  · have hinst : (Code.mk d.cells none).instructions = d.instructions := rfl
    simp only [hcells, hinst, ← h.last_eq.1]

end Holds

end Code

end DeskCalc
