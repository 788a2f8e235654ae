import DeskCalc.Proofs.Code
import Mathlib.Data.List.Induction

/-!
# Instructions written one behind the other

An instruction is written byte by byte, its operands behind it, and each part for a source line of
its own. Code that is written so is read back as it was written (`Code.putAll_readsBack`), although
an operand takes a varying number of bytes and these may look like other instructions. Cutting the
code leaves the instructions that end before the cut, and the last of them is the one written last
(`Code.truncate_putAll`).
-/

namespace DeskCalc

/-- An instruction as it is written: a source line for its byte, and operands of 64 bits with a
source line each. -/
structure Written where
  op : Opcode
  line : Nat
  operands : Vector (UInt64 × Nat) op.operandCount

namespace Written

open Code

/-- The values of the operands. -/
def values (w : Written) : List Nat := w.operands.toList.map (·.1.toNat)

/-- The bytes of the instruction, each with its source line. -/
def cells (w : Written) : List (UInt8 × Nat) :=
  (w.op.toByte, w.line) :: w.operands.toList.flatMap fun o =>
    (encodeIndex o.1.toNat).map fun b => (b, o.2)

/-- The source lines of the bytes. -/
def lines (w : Written) : List Nat :=
  w.line :: w.operands.toList.flatMap fun o =>
    List.replicate (encodeIndex o.1.toNat).length o.2

/-- The number of bytes. -/
def size (w : Written) : Nat := (encode w.op w.values).length

/-- The instruction apart from its source lines. -/
def command (w : Written) : Command := (w.op, w.values)

theorem length_values (w : Written) : w.values.length = w.op.operandCount := by
  simp [values]

theorem map_values_mod (w : Written) : w.values.map (· % wordBound) = w.values := by
  simp only [values, List.map_map]
  refine List.map_congr_left fun o _ => Nat.mod_eq_of_lt ?_
  exact o.1.toNat_lt

theorem map_fst_cells (w : Written) : w.cells.map (·.1) = encode w.op w.values := by
  simp [cells, encode, values, List.map_flatMap, List.flatMap_map, Function.comp_def]

theorem map_snd_cells (w : Written) : w.cells.map (·.2) = w.lines := by
  simp [cells, lines, List.map_flatMap, Function.comp_def, List.map_const']

end Written

namespace Code

variable {c : Code} {value k : Nat} {ws : List Written}

/-- Write an instruction: its byte, then its operands. -/
def put (c : Code) (w : Written) : Code :=
  w.operands.toList.foldl (fun c o => c.writeIndex o.1.toNat o.2) (c.writeOpcode w.op w.line)

/-- Write some instructions. -/
def putAll (c : Code) (ws : List Written) : Code := ws.foldl put c

/-- Where the instruction `k` starts: behind all bytes of those before it. -/
def start (ws : List Written) (k : Nat) : Nat := ((ws.take k).map Written.size).sum

/-- Where the operand `j` of the instruction `k` starts. -/
def operandStart (ws : List Written) (k : Nat) (values : List Nat) (j : Nat) : Nat :=
  start ws k + 1 + ((values.take j).map fun v => (encodeIndex v).length).sum

/-! ## Writing -/

theorem put_eq (c : Code) (w : Written) :
    c.put w = ⟨c.cells ++ w.cells.toArray, some c.size⟩ := by
  have step (d : Code) (os : List (UInt64 × Nat)) :
      os.foldl (fun c o => c.writeIndex o.1.toNat o.2) d =
        { d with cells := d.cells ++
            (os.flatMap fun o => (encodeIndex o.1.toNat).map fun b => (b, o.2)).toArray } := by
    induction os generalizing d with
    | nil => simp
    | cons o os ih =>
      rw [List.foldl_cons, ih]
      simp [writeIndex, writeBytes]
  rw [put, step]
  simp [writeOpcode, Written.cells]

theorem putAll_append (c : Code) (ws vs : List Written) :
    c.putAll (ws ++ vs) = (c.putAll ws).putAll vs :=
  List.foldl_append

theorem cells_putAll (c : Code) (ws : List Written) :
    (c.putAll ws).cells.toList = c.cells.toList ++ ws.flatMap Written.cells := by
  induction ws generalizing c with
  | nil => simp [putAll]
  | cons w ws ih =>
    rw [putAll, List.foldl_cons, ← putAll, ih, put_eq]
    simp

theorem encodeAll_command (ws : List Written) :
    encodeAll (ws.map Written.command) = (ws.flatMap Written.cells).map (·.1) := by
  simp [encodeAll, List.flatMap_map, List.map_flatMap, Written.map_fst_cells, Written.command]

theorem bytes_putAll (ws : List Written) :
    (empty.putAll ws).bytes = encodeAll (ws.map Written.command) := by
  rw [bytes, cells_putAll, encodeAll_command]
  rfl

theorem start_eq (ws : List Written) (k : Nat) :
    start ws k = (encodeAll ((ws.take k).map Written.command)).length := by
  rw [start, encodeAll, List.flatMap_map, List.length_flatMap]
  rfl

theorem size_putAll (ws : List Written) : (empty.putAll ws).size = start ws ws.length := by
  rw [← length_bytes, bytes_putAll, start_eq, List.take_length]

/-- The instructions with the places where they start. -/
def placed (ws : List Written) : List Instruction :=
  ws.mapIdx fun k w => ⟨start ws k, w.op, w.values⟩

theorem getElem?_located (offset : Nat) (is : List Command) (k : Nat) :
    (located offset is)[k]? = is[k]?.map fun i =>
      ⟨offset + (encodeAll (is.take k)).length, i.1, i.2.map (· % wordBound)⟩ := by
  induction is generalizing offset k with
  | nil => simp [located]
  | cons i is ih =>
    obtain ⟨op, operands⟩ := i
    cases k with
    | zero => simp [located]
    | succ k => simp [located, ih, Nat.add_assoc]

theorem located_command (ws : List Written) : located 0 (ws.map Written.command) = placed ws := by
  apply List.ext_getElem?
  intro k
  rw [getElem?_located, placed, List.getElem?_mapIdx, List.getElem?_map]
  cases ws[k]? with
  | none => rfl
  | some w =>
    simp only [Option.map_some, Written.command, Written.map_values_mod, Nat.zero_add]
    rw [← List.map_take, start_eq]

theorem lastOffset_putAll (ws : List Written) :
    (empty.putAll ws).lastOffset = (placed ws).getLast?.map (·.offset) := by
  cases ws using List.reverseRecOn with
  | nil => rfl
  | append_singleton ws w =>
    have hlast : (placed (ws ++ [w])).getLast? = some ⟨start ws ws.length, w.op, w.values⟩ := by
      simp [placed, start]
    rw [putAll_append, hlast, ← size_putAll]
    simp [putAll, put_eq]

/-! ## Reading back -/

theorem operands_length (ws : List Written) :
    ∀ i ∈ ws.map Written.command, i.2.length = i.1.operandCount := by
  intro i hi
  obtain ⟨w, -, rfl⟩ := List.mem_map.1 hi
  exact w.length_values

theorem instructions_putAll (ws : List Written) : (empty.putAll ws).instructions = placed ws := by
  rw [instructions, ← length_bytes, bytes_putAll, ← located_command]
  exact decodeAll_encodeAll (operands_length ws) (length_le_encodeAll _) 0

/-- An operand is read where it was written. -/
theorem indexAt?_of_bytes {front rest : List UInt8}
    (h : c.bytes = front ++ (encodeIndex value ++ rest)) (hvalue : value < wordBound) :
    c.indexAt? front.length = some (value, front.length + (encodeIndex value).length) := by
  rw [indexAt?, h, List.drop_left, decodeIndex_encodeIndex, Nat.mod_eq_of_lt hvalue]
  rfl

theorem eq_take_append {α : Type} {l : List α} {a : α} (h : l[k]? = some a) :
    l = l.take k ++ a :: l.drop (k + 1) := by
  obtain ⟨hk, rfl⟩ := List.getElem?_eq_some_iff.1 h
  rw [← List.drop_eq_getElem_cons hk, List.take_append_drop]

/-- The bytes before an operand, the operand, and the bytes behind it. -/
theorem bytes_split {j : Nat} {w : Written} (hw : ws[k]? = some w)
    (hvalue : w.values[j]? = some value) : ∃ front rest,
      (empty.putAll ws).bytes = front ++ (encodeIndex value ++ rest) ∧
        front.length = operandStart ws k w.values j := by
  refine ⟨encodeAll ((ws.take k).map Written.command) ++
      (w.op.toByte :: (w.values.take j).flatMap encodeIndex),
    (w.values.drop (j + 1)).flatMap encodeIndex ++
      encodeAll ((ws.drop (k + 1)).map Written.command), ?_, ?_⟩
  · have hws := congrArg (encodeAll ∘ List.map Written.command) (eq_take_append hw)
    have hvalues := congrArg (List.flatMap encodeIndex) (eq_take_append hvalue)
    simp only [Function.comp_apply, List.map_append, List.map_cons, encodeAll_append,
      Written.command, encodeAll_cons, encode] at hws
    rw [bytes_putAll, hws, hvalues]
    simp
  · simp only [operandStart, start_eq, List.length_append, List.length_cons, List.length_flatMap]
    omega

theorem values_lt {w : Written} (h : value ∈ w.values) : value < wordBound := by
  obtain ⟨o, -, rfl⟩ := List.mem_map.1 h
  exact o.1.toNat_lt

/-- An instruction that is read stands at its place. -/
theorem byte_of_mem_decodeAll {n offset : Nat} {bytes : List UInt8} {i : Instruction}
    (h : i ∈ decodeAll n offset bytes) :
    ∃ m, i.offset = offset + m ∧ bytes[m]?.bind Opcode.ofByte? = some i.op := by
  induction n generalizing offset bytes with
  | zero => cases h
  | succ n ih =>
    rw [decodeAll] at h
    split at h
    · cases h
    · next op operands size hdecode =>
      rcases List.mem_cons.1 h with rfl | h
      · refine ⟨0, rfl, ?_⟩
        cases bytes with
        | nil => cases hdecode
        | cons b bytes =>
          simp only [decode] at hdecode
          split at hdecode
          · cases hdecode
          · next hop =>
            split at hdecode <;> cases hdecode
            exact hop
      · obtain ⟨m, hm, hop⟩ := ih h
        exact ⟨size + m, by rw [hm, Nat.add_assoc], by rw [← hop, List.getElem?_drop]⟩

theorem opcodeAt?_of_mem {i : Instruction} (h : i ∈ c.instructions) :
    c.opcodeAt? i.offset = some i.op := by
  obtain ⟨m, hm, hop⟩ := byte_of_mem_decodeAll h
  rw [opcodeAt?, byteAt?, hm, Nat.zero_add, ← hop, bytes, List.getElem?_map, Array.getElem?_toList]

/-- Where the instruction written last is the last one that is read, its byte is found there. -/
theorem lastOpcode?_eq (hread : c.instructions = placed ws)
    (hlast : c.lastOffset = (placed ws).getLast?.map (·.offset)) :
    c.lastOpcode? = ws.getLast?.map (·.op) := by
  have hops : (placed ws).map (·.op) = ws.map (·.op) :=
    List.ext_getElem? fun k => by simp [placed, Function.comp_def]
  rw [← List.getLast?_map, ← hops, List.getLast?_map, lastOpcode?, hlast]
  cases hi : (placed ws).getLast? with
  | none => rfl
  | some i => exact opcodeAt?_of_mem (hread ▸ List.mem_of_getLast? hi)

/-- The code consists of `ws` and is read as such. -/
structure ReadsBack (c : Code) (ws : List Written) : Prop where
  instructions : c.instructions = placed ws
  last : c.lastOpcode? = ws.getLast?.map (·.op)
  /-- Every byte has the source line of the part it belongs to. -/
  lines : c.lines = ws.flatMap Written.lines
  /-- This much is so of all code: a byte and its line are kept as a pair. -/
  parallel : c.lines.length = c.bytes.length
  operands : ∀ k w, ws[k]? = some w → ∀ j value, w.values[j]? = some value →
    c.indexAt? (operandStart ws k w.values j) =
      some (value, operandStart ws k w.values j + (encodeIndex value).length)

/-- **What was written is read back.** -/
theorem putAll_readsBack (ws : List Written) : (empty.putAll ws).ReadsBack ws where
  instructions := instructions_putAll ws
  last := lastOpcode?_eq (instructions_putAll ws) (lastOffset_putAll ws)
  lines := by
    rw [Code.lines, cells_putAll, List.map_append, List.map_flatMap]
    simp only [Written.map_snd_cells]
    rfl
  parallel := by simp
  operands k w hw j value hvalue := by
    obtain ⟨front, rest, hbytes, hfront⟩ := bytes_split hw hvalue
    rw [← hfront]
    exact indexAt?_of_bytes hbytes (values_lt (List.mem_of_getElem? hvalue))

/-! ## Cutting -/

theorem decodeIndex_take {m : Nat} (h : m < (encodeIndex value).length) :
    decodeIndex ((encodeIndex value).take m) = none := by
  have hlen := length_bytesOf_le 8 value
  have hbyte : (UInt8.ofNat (bytesOf 8 value).length).toNat = (bytesOf 8 value).length := by
    rw [UInt8.toNat_ofNat']
    omega
  cases m with
  | zero => rfl
  | succ m =>
    rw [encodeIndex, List.length_cons] at h
    rw [encodeIndex, List.take_succ_cons, decodeIndex, hbyte, if_neg]
    rw [List.length_take]
    omega

/-- Some bytes of some operands do not make up as many operands. -/
theorem decodeIndices_take {operands : List Nat} {m : Nat}
    (h : m < (operands.flatMap encodeIndex).length) :
    decodeIndices operands.length ((operands.flatMap encodeIndex).take m) = none := by
  induction operands generalizing m with
  | nil => simp at h
  | cons value operands ih =>
    rw [List.flatMap_cons, List.length_append] at h
    rw [List.flatMap_cons, List.length_cons, decodeIndices, List.take_append]
    by_cases hm : m < (encodeIndex value).length
    · rw [Nat.sub_eq_zero_of_le (Nat.le_of_lt hm), List.take_zero, List.append_nil,
        decodeIndex_take hm]
    · have hm := Nat.le_of_not_lt hm
      rw [List.take_of_length_le hm, decodeIndex_encodeIndex]
      simp only [List.drop_left]
      rw [ih (by omega)]

theorem decode_take {op : Opcode} {operands : List Nat} (hop : operands.length = op.operandCount)
    {m : Nat} (h : m < (encode op operands).length) :
    decode ((encode op operands).take m) = none := by
  cases m with
  | zero => rfl
  | succ m =>
    rw [encode, List.length_cons] at h
    rw [encode, List.take_succ_cons, decode, Opcode.ofByte?_toByte]
    simp only [← hop, decodeIndices_take (Nat.lt_of_succ_lt_succ h)]

/-- Of bytes that are cut, exactly the instructions that end before the cut are read. -/
theorem decodeAll_take {is : List Command} (h : ∀ i ∈ is, i.2.length = i.1.operandCount)
    {n : Nat} (len : Nat) (hn : ((encodeAll is).take len).length ≤ n) (offset : Nat) :
    ∃ k ≤ is.length, (∀ j < is.length, (encodeAll (is.take (j + 1))).length ≤ len ↔ j < k) ∧
      decodeAll n offset ((encodeAll is).take len) = located offset (is.take k) := by
  induction is generalizing n len offset with
  | nil => exact ⟨0, Nat.le_refl 0, nofun, by cases n <;> simp [decodeAll, decode, located]⟩
  | cons i is ih =>
    obtain ⟨op, operands⟩ := i
    have hop : operands.length = op.operandCount := h (op, operands) List.mem_cons_self
    rw [encodeAll_cons, List.take_append] at hn ⊢
    by_cases hcut : len < (encode op operands).length
    · -- the cut is inside the first instruction
      refine ⟨0, Nat.zero_le _, fun j _ => ?_, ?_⟩
      · rw [List.take_succ_cons, encodeAll_cons, List.length_append]
        omega
      · rw [Nat.sub_eq_zero_of_le (Nat.le_of_lt hcut), List.take_zero, List.append_nil]
        cases n with
        | zero => rfl
        | succ n => simp only [decodeAll, decode_take hop hcut, List.take_zero, located]
    · have hcut := Nat.le_of_not_lt hcut
      have hpos : 0 < (encode op operands).length := by simp [encode]
      rw [List.take_of_length_le hcut] at hn ⊢
      rw [List.length_append] at hn
      obtain ⟨n, rfl⟩ : ∃ m, n = m + 1 := ⟨n - 1, by omega⟩
      obtain ⟨k, hk, hwhole, hread⟩ := ih (fun i hi => h i (List.mem_cons_of_mem _ hi))
        (n := n) (len - (encode op operands).length) (by omega)
        (offset + (encode op operands).length)
      refine ⟨k + 1, Nat.succ_le_succ hk, fun j hj => ?_, ?_⟩
      · rw [List.take_succ_cons, encodeAll_cons, List.length_append]
        cases j with
        | zero => simp [hcut]
        | succ j =>
          have := hwhole j (Nat.lt_of_succ_lt_succ hj)
          omega
      · simp only [decodeAll, decode_encode hop, List.drop_left, hread, List.take_succ_cons,
          located]

/-- The code is that of `ws` cut at `len`, and the first `k` instructions end before the cut. These
are the ones that are read, and the last of them counts as the one written last. -/
structure Keeps (c : Code) (ws : List Written) (len k : Nat) : Prop where
  whole : ∀ j < ws.length, start ws (j + 1) ≤ len ↔ j < k
  cells : c.cells.toList = (ws.flatMap Written.cells).take len
  instructions : c.instructions = placed (ws.take k)
  last : c.lastOffset = (placed (ws.take k)).getLast?.map (·.offset)
  opcode : c.lastOpcode? = (ws.take k).getLast?.map (·.op)

theorem cells_truncate (c : Code) (len : Nat) :
    (c.truncate len).cells.toList = c.cells.toList.take len := by
  rw [truncate]
  split
  · next h => rw [List.take_of_length_le (by simpa [size] using h)]
  · simp

theorem lastOffset_truncate (h : c.lastOffset = c.instructions.getLast?.map (·.offset)) (len : Nat) :
    (c.truncate len).lastOffset = (c.truncate len).instructions.getLast?.map (·.offset) := by
  rw [truncate]
  split
  · exact h
  · rfl

theorem exists_keeps (ws : List Written) (len : Nat) :
    ∃ k ≤ ws.length, ((empty.putAll ws).truncate len).Keeps ws len k := by
  have hcells : ((empty.putAll ws).truncate len).cells.toList =
      (ws.flatMap Written.cells).take len := by
    rw [cells_truncate, cells_putAll]
    rfl
  have hbytes : ((empty.putAll ws).truncate len).bytes =
      (encodeAll (ws.map Written.command)).take len := by
    rw [bytes, hcells, encodeAll_command, List.map_take]
  obtain ⟨k, hk, hwhole, hread⟩ := decodeAll_take (operands_length ws)
    (n := ((empty.putAll ws).truncate len).size) len
    (Nat.le_of_eq (by rw [← hbytes, length_bytes])) 0
  rw [← hbytes, ← List.map_take, located_command] at hread
  have hlast := lastOffset_truncate (c := empty.putAll ws)
    (by rw [lastOffset_putAll, instructions_putAll]) len
  rw [instructions, hread] at hlast
  rw [List.length_map] at hk hwhole
  refine ⟨k, hk, fun j hj => ?_, hcells, hread, hlast, lastOpcode?_eq hread hlast⟩
  rw [start_eq, List.map_take]
  exact hwhole j hj

theorem start_succ {w : Written} (h : ws[k]? = some w) : start ws (k + 1) = start ws k + w.size := by
  simp [start, List.take_add_one, h]

theorem start_append (ws vs : List Written) : start (ws ++ vs) ws.length = start ws ws.length := by
  rw [start, start, List.take_left, List.take_length]

/-- Up to an earlier end, exactly the instructions written before it are whole. -/
theorem Keeps.eq_length {vs : List Written} (h : c.Keeps (ws ++ vs) (start ws ws.length) k)
    (hk : k ≤ (ws ++ vs).length) : k = ws.length := by
  apply Nat.le_antisymm
  · by_contra hlt
    have hlt := Nat.lt_of_not_le hlt
    obtain ⟨w, hw⟩ : ∃ w, (ws ++ vs)[ws.length]? = some w :=
      ⟨_, List.getElem?_eq_getElem (Nat.lt_of_lt_of_le hlt hk)⟩
    have hend := (h.whole ws.length (Nat.lt_of_lt_of_le hlt hk)).2 hlt
    rw [start_succ hw, start_append] at hend
    have hpos : 0 < w.size := by simp [Written.size, encode]
    omega
  · cases hws : ws.length with
    | zero => exact Nat.zero_le k
    | succ j =>
      have hj : j < (ws ++ vs).length := by
        rw [List.length_append]
        omega
      refine (h.whole j hj).1 (Nat.le_of_eq ?_)
      rw [← hws, start_append]

theorem eq_of_cells {d : Code} (hcells : c.cells.toList = d.cells.toList)
    (hlast : c.lastOffset = d.lastOffset) : c = d := by
  cases c
  cases d
  cases Array.toList_inj.1 hcells
  cases hlast
  rfl

/-- **Cutting code takes back what was written behind the cut.** At an earlier end of the code this
gives back the code as it was there. At any other place, of the instruction that is cut in two
nothing is read. -/
theorem truncate_putAll (ws vs : List Written) :
    ((empty.putAll ws).putAll vs).truncate (empty.putAll ws).size = empty.putAll ws ∧
      ∀ len, ∃ k ≤ ws.length, ((empty.putAll ws).truncate len).Keeps ws len k := by
  refine ⟨?_, exists_keeps ws⟩
  obtain ⟨k, hk, hkeeps⟩ := exists_keeps (ws ++ vs) (start ws ws.length)
  obtain rfl := hkeeps.eq_length hk
  rw [← size_putAll] at hkeeps
  rw [← putAll_append]
  apply eq_of_cells
  · rw [hkeeps.cells, cells_putAll, List.flatMap_append]
    refine List.take_left' ?_
    rw [size, ← Array.length_toList, cells_putAll]
    rfl
  · rw [hkeeps.last, List.take_left, lastOffset_putAll]

end Code

end DeskCalc
