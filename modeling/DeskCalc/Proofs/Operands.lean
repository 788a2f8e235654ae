import DeskCalc.Proofs.Linking

/-!
# What operands stand for

An operand is an index into a table of the program: a constant, a name, a function, or a label of
the function it stands in. `P.Provides op operands` says that the operands of an instruction are
entries of the tables of `P`; labels are told apart, because a jump may be written before its label
is made. In a program that is `Valid` this holds of all code, and of the locals of all functions.

Tables only grow, so that code that was provided for stays so (`Program.Provides.grows`). Writing an
instruction, entering a name, declaring a local and beginning a function anew keep a program valid,
and so does cutting the main code. An operand is read modulo `wordBound`, which matters only for the
tables whose entries are told apart: those of the constants and of the functions may not be larger.
-/

namespace DeskCalc

theorem Table.lt_size_iff {α : Type} {t : Table α} {k : Nat} :
    k < t.size ↔ ∃ a, t.get? k = some a := by
  rw [size, get?]
  constructor
  · exact fun h => ⟨_, Array.getElem?_eq_getElem h⟩
  · rintro ⟨a, ha⟩
    exact (Array.getElem?_eq_some_iff.1 ha).1

theorem Table.forall_push {α : Type} {t : Table α} {a : α} {C : α → Prop} (ha : C a)
    (ht : ∀ i b, t.get? i = some b → C b) : ∀ i b, (t.push a).get? i = some b → C b := by
  intro i b hb
  rw [get?_push] at hb
  split at hb
  · exact Option.some.inj hb ▸ ha
  · exact ht i b hb

namespace Program

variable {P Q : Program} {id k : Nat} {op : Opcode} {operands : List Nat} {f g : Function}

theorem lt_length_functions_iff : id < P.functions.length ↔ ∃ f, P.function? id = some f := by
  rw [← getElem?_functions]
  constructor
  · exact fun h => ⟨_, List.getElem?_eq_getElem h⟩
  · rintro ⟨f, hf⟩
    exact (List.getElem?_eq_some_iff.1 hf).1

/-! ## Operands that are provided for -/

/-- The operands of an instruction are entries of the tables of the program. A number is written
without the marks that continue a line. -/
def Provides (P : Program) : Opcode → List Nat → Prop
  | .num, operands => ∃ k text, operands = [k] ∧ P.constants.get? k = some (.number text) ∧
      '\\' ∉ text.toList
  | .str, operands => ∃ k text, operands = [k] ∧ P.constants.get? k = some (.string text)
  | .var, operands => ∃ k, operands = [k] ∧ k < P.vars.size
  | .elem, operands | .array, operands => ∃ k, operands = [k] ∧ k < P.arrays.size
  | .call, operands => ∃ count id, operands = [count, id] ∧ answerId < id ∧ id < P.functions.length
  | _, _ => True

theorem provides_of_operandCount (h : op.operandCount = 0) : P.Provides op operands := by
  cases op <;> trivial

theorem Grows.vars_lt (h : P.Grows Q) (hk : k < P.vars.size) : k < Q.vars.size := by
  obtain ⟨a, ha⟩ := Table.lt_size_iff.1 hk
  exact Table.lt_size_iff.2 ⟨a, h.vars k a ha⟩

theorem Grows.arrays_lt (h : P.Grows Q) (hk : k < P.arrays.size) : k < Q.arrays.size := by
  obtain ⟨a, ha⟩ := Table.lt_size_iff.1 hk
  exact Table.lt_size_iff.2 ⟨a, h.arrays k a ha⟩

theorem Grows.functions_lt (h : P.Grows Q) (hk : k < P.functions.length) :
    k < Q.functions.length := by
  obtain ⟨f, hf⟩ := lt_length_functions_iff.1 hk
  obtain ⟨g, hg, -⟩ := h.names k f hf
  exact lt_length_functions_iff.2 ⟨g, hg⟩

/-- **What is provided for stays so.** -/
theorem Provides.grows (h : P.Provides op operands) (hPQ : P.Grows Q) : Q.Provides op operands := by
  cases op with
  | num =>
    obtain ⟨k, text, hk, hget, htext⟩ := h
    exact ⟨k, text, hk, hPQ.constants k _ hget, htext⟩
  | str =>
    obtain ⟨k, text, hk, hget⟩ := h
    exact ⟨k, text, hk, hPQ.constants k _ hget⟩
  | var =>
    obtain ⟨k, hk, hlt⟩ := h
    exact ⟨k, hk, hPQ.vars_lt hlt⟩
  | elem | array =>
    obtain ⟨k, hk, hlt⟩ := h
    exact ⟨k, hk, hPQ.arrays_lt hlt⟩
  | call =>
    obtain ⟨count, id, hoperands, hid, hlt⟩ := h
    exact ⟨count, id, hoperands, hid, hPQ.functions_lt hlt⟩
  | _ => trivial

/-- The index of a local lies in the table of its namespace. -/
def Knows (P : Program) (l : Local) : Prop :=
  l.index < if l.kind.isArray then P.arrays.size else P.vars.size

theorem Knows.grows {l : Local} (h : P.Knows l) (hPQ : P.Grows Q) : Q.Knows l := by
  unfold Knows at h ⊢
  split at h
  · next hl =>
    rw [if_pos hl]
    exact hPQ.arrays_lt h
  · next hl =>
    rw [if_neg hl]
    exact hPQ.vars_lt h

/-- The code of the function is made of instructions whose operands are provided for, and its locals
have names. -/
structure Provided (P : Program) (f : Function) : Prop where
  code : ∃ is, f.code.Holds is
  operands : ∀ i ∈ f.code.instructions, P.Provides i.op i.operands
  locals : ∀ l ∈ f.locals, P.Knows l

theorem Provided.grows (h : P.Provided f) (hPQ : P.Grows Q) : Q.Provided f :=
  ⟨h.code, fun i hi => (h.operands i hi).grows hPQ, fun l hl => (h.locals l hl).grows hPQ⟩

theorem provided_of_empty (hcode : f.code = {}) (hlocals : f.locals = []) : P.Provided f where
  code := ⟨[], hcode ▸ .empty_nil⟩
  operands i hi := by
    rw [hcode] at hi
    cases hi
  locals l hl := by
    rw [hlocals] at hl
    cases hl

theorem Provided.congr (h : P.Provided f) (hcode : g.code = f.code)
    (hlocals : g.locals = f.locals) : P.Provided g :=
  ⟨hcode ▸ h.code, hcode ▸ h.operands, hlocals ▸ h.locals⟩

end Program

/-! ## The last instruction -/

namespace Code

variable {c d : Code} {is : List Command} {op op' : Opcode} {operands : List Nat} {line : Nat}

theorem Writes.eq_of_nil (h : c.Writes [] d) : d = c := by
  generalize hjs : ([] : List Command) = js at h
  cases h with
  | nil => rfl
  | snoc => simp at hjs

/-- Only an instruction without operands gives way to another one, and it is the last. -/
theorem Holds.of_replaceLast? (h : c.Holds is) (hd : c.replaceLast? op op' = some d) :
    op.operandCount = 0 ∧ op'.operandCount = 0 ∧ ∃ (b : Code) (js : List Command) (line : Nat),
      b.Holds js ∧ c = b.write op [] line ∧ d = b.write op' [] line := by
  unfold Holds at h
  cases h with
  | nil => cases hd
  | @snoc js b h last operands hlast line =>
    have hd' := hd
    simp only [replaceLast?, lastOffset_write] at hd'
    split at hd'
    · next hcond =>
      obtain ⟨hsize, hop, hcount⟩ := hcond
      have hlast' : (b.write last operands line).opcodeAt? b.size = some last := by
        simpa [lastOpcode?] using lastOpcode?_write b last operands line
      cases hlast'.symm.trans hop
      have hnone : operands = [] := by
        have hlen := (Writes.single b hlast line).size_eq
        rw [← hsize] at hlen
        cases operands with
        | nil => rfl
        | cons value operands => simp [encodeAll, encode, encodeIndex] at hlen
      subst hnone
      rw [replaceLast?_write b hcount line] at hd
      cases hd
      exact ⟨hlast.symm, hcount, b, js, line, h, rfl, rfl⟩
    · cases hd'

end Code

namespace Program

variable {P Q : Program} {id k : Nat} {op op' : Opcode} {operands : List Nat} {f g : Function}

theorem Provided.write (h : P.Provided f) (hop : operands.length = op.operandCount)
    (hprovides : P.Provides op (operands.map (· % wordBound))) (line : Nat) :
    P.Provided { f with code := f.code.write op operands line } := by
  obtain ⟨is, his⟩ := h.code
  refine ⟨⟨_, his.writes (.single f.code hop line)⟩, fun i hi => ?_, h.locals⟩
  have hi : i ∈ (f.code.write op operands line).instructions := hi
  rw [his.instructions_write hop] at hi
  rcases List.mem_append.1 hi with hi | hi
  · exact h.operands i hi
  · cases List.mem_singleton.1 hi
    exact hprovides

theorem Provided.writePlain (h : P.Provided f) (hop : op.operandCount = 0) (line : Nat) :
    P.Provided { f with code := f.code.write op [] line } :=
  h.write (show ([] : List Nat).length = _ from hop.symm) (provides_of_operandCount hop) line

theorem Provided.replaceLast {c : Code} (h : P.Provided f)
    (hc : f.code.replaceLast? op op' = some c) : P.Provided { f with code := c } := by
  obtain ⟨is, his⟩ := h.code
  obtain ⟨hop, hop', b, js, line, hb, hcode, rfl⟩ := Code.Holds.of_replaceLast? his hc
  have hbefore : P.Provided { f with code := b } := by
    refine ⟨⟨js, hb⟩, fun i hi => h.operands i ?_, h.locals⟩
    rw [hcode, hb.instructions_write (show ([] : List Nat).length = _ from hop.symm)]
    exact List.mem_append_left _ hi
  exact hbefore.writePlain hop' line

/-- Leaving no value on the stack changes only instructions without operands. -/
theorem Provided.discardValue {c : Code} {t : Tally} {line : Nat} (h : P.Provided f)
    (hc : f.code.discardValue? t line = some c) : P.Provided { f with code := c } := by
  unfold Code.discardValue? at hc
  split at hc
  · cases hc
  · split at hc
    · obtain ⟨op, -, hc⟩ := Option.bind_eq_some_iff.1 hc
      exact h.replaceLast hc
    · split at hc
      · split at hc
        case h_5 => cases hc
        case h_1 | h_2 =>
          obtain ⟨b, hb, rfl⟩ := Option.map_eq_some_iff.1 hc
          exact (h.replaceLast hb).writePlain rfl line
        case h_3 | h_4 => exact h.replaceLast hc
      · cases hc

/-! ## Valid programs -/

/-- The names in the tables are names of the source. -/
structure Spelled (P : Program) : Prop where
  vars : ∀ i name, P.vars.get? i = some name → IsName name
  arrays : ∀ i name, P.arrays.get? i = some name → IsName name
  functions : ∀ id f, P.function? (id + 2) = some f → IsName f.name

/-- The operands of all code are provided for, the tables whose entries are told apart are not too
large, the functions that are always there have names that no source can write, and no other name
is of this kind. -/
structure Valid (P : Program) : Prop where
  constants : P.limits.constants ≤ wordBound ∧ P.constants.size ≤ wordBound
  functions : P.limits.functions ≤ wordBound ∧ P.functions.length ≤ wordBound
  names : P.main.name = "(main)" ∧ P.answer.name = "(read)"
  spelled : P.Spelled
  provided : ∀ id f, P.function? id = some f → P.Provided f

/-- One function changes. -/
theorem Valid.modifyFunction {change : Function → Function} (h : P.Valid)
    (hchange : ∀ f, P.function? id = some f → P.Provided (change f)) :
    (P.modifyFunction change id).Valid := by
  have hgrows : P.Grows (P.modifyFunction change id) := .modify
  refine ⟨?_, ?_, ?_, ⟨?_, ?_, fun i f hf => ?_⟩, fun i f hf => ?_⟩
  · simpa using h.constants
  · refine ⟨?_, ?_⟩
    · simpa using h.functions.1
    · have hlength : (P.modifyFunction change id).functions.length = P.functions.length := by
        rcases id with _ | _ | id <;> simp [Program.modifyFunction, Store.functions]
      exact hlength ▸ h.functions.2
  · rw [hgrows.names_eq.1, hgrows.names_eq.2]
    exact h.names
  · simpa using h.spelled.vars
  · simpa using h.spelled.arrays
  · rw [function?_modifyFunction] at hf
    split at hf
    · obtain ⟨g, hg, rfl⟩ := Option.map_eq_some_iff.1 hf
      exact h.spelled.functions i g hg
    · exact h.spelled.functions i f hf
  · rw [function?_modifyFunction] at hf
    refine Provided.grows ?_ hgrows
    split at hf
    · next hi =>
      obtain ⟨g, hg, rfl⟩ := Option.map_eq_some_iff.1 hf
      exact (hchange g (hi ▸ hg)).congr rfl rfl
    · exact h.provided i f hf

/-- The tables get new entries, and functions that are new are empty. -/
theorem Valid.extends (h : P.Valid) (hQ : P.Extends id [] Q)
    (hconstants : Q.constants.size ≤ wordBound) (hfunctions : Q.functions.length ≤ wordBound)
    (hspelled : Q.Spelled) : Q.Valid := by
  refine ⟨⟨hQ.limits ▸ h.constants.1, hconstants⟩, ⟨hQ.limits ▸ h.functions.1, hfunctions⟩, ?_,
    hspelled, fun i f hf => ?_⟩
  · rw [hQ.grows.names_eq.1, hQ.grows.names_eq.2]
    exact h.names
  · cases hP : P.function? i with
    | none =>
      rw [hQ.fresh i f hP hf]
      exact provided_of_empty rfl rfl
    | some g =>
      have hsame : Q.function? i = some g := by
        by_cases hi : i = id
        · subst hi
          obtain ⟨g', c, hg', hc, hsame⟩ := hQ.written
          cases hP.symm.trans hg'
          rw [hsame, hc.eq_of_nil]
        · exact hQ.others i g hi hP
      cases hf.symm.trans hsame
      exact (h.provided i _ hP).grows hQ.grows

end Program
end DeskCalc
