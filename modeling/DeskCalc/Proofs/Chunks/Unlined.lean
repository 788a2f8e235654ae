import DeskCalc.Expression
import DeskCalc.Proofs.Program

/-!
# Programs without their lines

The line numbers of code are written and never read. `Program.unlined` forgets them, and so do the
same operations on a function and on code. Whatever the compiler does to a program, it
does the same to the program without lines, which is one equation for each operation.
-/

namespace DeskCalc

namespace Code

/-- The code with every line number zero. -/
def unlined (c : Code) : Code := { c with cells := c.cells.map fun cell => (cell.1, 0) }

section

variable (c : Code)
include c

@[simp] theorem size_unlined : c.unlined.size = c.size := by simp [unlined, size]

@[simp] theorem bytes_unlined : c.unlined.bytes = c.bytes := by simp [unlined, bytes]

theorem unlined_writeOpcode (op : Opcode) (line : Nat) :
    (c.writeOpcode op line).unlined = c.unlined.writeOpcode op 0 := by
  simp [unlined, writeOpcode, size]

theorem unlined_writeBytes (bytes : List UInt8) (line : Nat) :
    (c.writeBytes bytes line).unlined = c.unlined.writeBytes bytes 0 := by
  simp only [unlined, writeBytes]
  congr 1
  generalize c.cells = cells
  induction bytes generalizing cells with
  | nil => rfl
  | cons b bytes ih => rw [List.foldl_cons, ih, Array.map_push, List.foldl_cons]

theorem unlined_write (op : Opcode) (operands : List Nat) (line : Nat) :
    (c.write op operands line).unlined = c.unlined.write op operands 0 := by
  unfold write
  rw [← unlined_writeOpcode c op line]
  generalize c.writeOpcode op line = c
  induction operands generalizing c with
  | nil => rfl
  | cons value operands ih =>
    rw [List.foldl_cons, ih, List.foldl_cons, writeIndex, writeIndex, unlined_writeBytes]

theorem opcodeAt?_unlined (offset : Nat) : c.unlined.opcodeAt? offset = c.opcodeAt? offset := by
  simp [unlined, opcodeAt?, byteAt?, Function.comp_def]

theorem lastOpcode?_unlined : c.unlined.lastOpcode? = c.lastOpcode? := by
  simp only [lastOpcode?, unlined]
  exact Option.bind_congr fun offset _ => opcodeAt?_unlined c offset

theorem replaceLast?_unlined (expected replacement : Opcode) :
    c.unlined.replaceLast? expected replacement =
      (c.replaceLast? expected replacement).map unlined := by
  have hlast : c.unlined.lastOffset = c.lastOffset := rfl
  simp only [replaceLast?, hlast, size_unlined, opcodeAt?_unlined]
  cases c.lastOffset with
  | none => rfl
  | some offset =>
    simp only
    split
    · simp only [Option.map_some, unlined, Option.some.injEq, Code.mk.injEq, and_true]
      ext i <;> grind
    · rfl

theorem instructions_unlined : c.unlined.instructions = c.instructions := by
  rw [instructions, instructions, size_unlined, bytes_unlined]

theorem unlined_truncate (len : Nat) : (c.truncate len).unlined = c.unlined.truncate len := by
  unfold truncate
  rw [size_unlined]
  split
  · rfl
  · have hcells : c.unlined.cells.take len =
        ({ cells := c.cells.take len } : Code).unlined.cells := by
      simp [unlined]
    have hkept := instructions_unlined { cells := c.cells.take len }
    simp only [hcells]
    rw [show ({ cells := ({ cells := c.cells.take len } : Code).unlined.cells } : Code) =
      ({ cells := c.cells.take len } : Code).unlined from rfl, hkept]
    rfl

theorem discardValue?_unlined (t : Tally) (line : Nat) :
    c.unlined.discardValue? t 0 = (c.discardValue? t line).map unlined := by
  unfold discardValue?
  rw [lastOpcode?_unlined]
  cases c.lastOpcode? with
  | none => rfl
  | some last =>
    simp only
    split
    · cases last.discarding? with
      | none => rfl
      | some op => exact replaceLast?_unlined c last op
    · split
      · split
        all_goals simp [replaceLast?_unlined, Option.map_map, Function.comp_def, unlined_writeOpcode]
      · rfl

end

end Code

/-- The function with every line number zero. -/
def Function.unlined (f : Function) : Function := { f with code := f.code.unlined }

theorem Function.insertLocal?_unlined (f : Function) (l : Local) :
    f.unlined.insertLocal? l = (f.insertLocal? l).map unlined := by
  by_cases h : f.locals.any l.clashes = true <;> simp [insertLocal?, unlined, h]

/-- The tables with every line number zero. -/
def Store.unlined (s : Store) : Store :=
  { s with
    main := s.main.unlined
    answer := s.answer.unlined
    others := s.others.map Function.unlined }

theorem Store.unlined_push (s : Store) (e : TableEntry) : (s.push e).unlined = s.unlined.push e := by
  cases e <;> simp [unlined, push, pushFunction, functions, Function.unlined, Code.unlined]

namespace Program

/-- The program with every line number zero. -/
def unlined (P : Program) : Program where
  toStore := P.toStore.unlined
  agrees := { P.agrees with
    functions := by
      simpa [Store.functions, Store.unlined, Function.unlined, Function.comp_def]
        using P.agrees.functions }

theorem function?_unlined (P : Program) (id : Nat) :
    P.unlined.function? id = (P.function? id).map Function.unlined := by
  rcases id with _ | _ | id
  · rfl
  · rfl
  · simp [function?, unlined, Store.unlined]

theorem hasFunction_unlined (P : Program) (id : Nat) :
    P.unlined.hasFunction id = P.hasFunction id := by
  simp [hasFunction, unlined, Store.unlined]

/-- The same change to the same function. -/
theorem unlined_modifyFunction {P Q : Program} (h : Q.unlined = P.unlined)
    {change change' : Function → Function}
    (hchange : ∀ f g, g.unlined = f.unlined → (change' g).unlined = (change f).unlined) (id : Nat) :
    (Q.modifyFunction change' id).unlined = (P.modifyFunction change id).unlined := by
  have hstore : Q.toStore.unlined = P.toStore.unlined := congrArg toStore h
  simp only [Store.unlined, Store.mk.injEq] at hstore
  obtain ⟨hmain, hanswer, hothers, hindex, hvars, harrays, hconstants, hlimits⟩ := hstore
  have hnamed (f g : Function) (hfg : g.unlined = f.unlined) :
      ((change' g).named g.name).unlined = ((change f).named f.name).unlined := by
    have hname : g.name = f.name := congrArg (·.name) hfg
    rw [hname]
    exact congrArg (·.named f.name) (hchange f g hfg)
  refine eq_of_toStore ?_
  rcases id with _ | _ | id
  · simp [modifyFunction, unlined, Store.unlined, hnamed _ _ hmain, *]
  · simp [modifyFunction, unlined, Store.unlined, hnamed _ _ hanswer, *]
  · have hmodify : (Q.others.modify id fun g => (change' g).named g.name).map Function.unlined =
        (P.others.modify id fun f => (change f).named f.name).map Function.unlined := by
      have hget (i : Nat) := congrArg (·[i]?) hothers
      simp only [Array.getElem?_map] at hget
      refine Array.ext_getElem? fun i => ?_
      simp only [Array.getElem?_map, Array.getElem?_modify]
      have hi := hget i
      split
      · cases hP : P.others[i]? with
        | none =>
          rw [hP, Option.map_none, Option.map_eq_none_iff] at hi
          rw [hi]
          rfl
        | some f =>
          rw [hP, Option.map_some] at hi
          obtain ⟨g, hg, hgf⟩ := Option.map_eq_some_iff.1 hi
          rw [hg]
          exact congrArg some (hnamed f g hgf)
      · exact hi
    simp [modifyFunction, unlined, Store.unlined, *]

/-- A change of a program that answers an index does not depend on lines, nor on the place that it
would complain about. -/
def Interns (f F : Program → Except Diagnostic (Nat × Program)) : Prop :=
  ∀ ⦃P Q P' : Program⦄ ⦃i : Nat⦄, Q.unlined = P.unlined → f P = .ok (i, P') →
    ∃ Q', F Q = .ok (i, Q') ∧ Q'.unlined = P'.unlined

end Program

/-! ## Tables -/

/-- What is entered, and where, does not depend on lines. -/
theorem TableEntry.interns (e : TableEntry) (span span' : Span) :
    Program.Interns (e.enter span) (e.enter span') := by
  intro P Q P' i h hi
  have hstore : Q.toStore.unlined = P.toStore.unlined := congrArg Program.toStore h
  have hlookup : Q.lookup? e = P.lookup? e := by
    have hsame (s : Store) : s.unlined.lookup? e = s.lookup? e := by cases e <;> rfl
    rw [← hsame, hstore, hsame]
  have hcount : Q.count e.shelf = P.count e.shelf := by
    have hsame (s : Store) : s.unlined.count e.shelf = s.count e.shelf := by
      cases e <;> simp [Store.count, shelf, Store.unlined, Store.functions]
    rw [← hsame, hstore, hsame]
  have hlimits : Q.limits = P.limits := congrArg (·.limits) h
  rcases enter_cases e span P with ⟨k, hk, heq⟩ | ⟨R, hnew, hroom, hR, heq⟩ | ⟨-, -, heq⟩ <;>
    cases heq.symm.trans hi <;>
    rcases enter_cases e span' Q with ⟨j, hj, heq'⟩ | ⟨R', hnew', -, hR', heq'⟩ | ⟨hnew', hfull, -⟩
  · cases hj.symm.trans (hlookup.trans hk)
    exact ⟨Q, heq', h⟩
  · cases hnew'.symm.trans (hlookup.trans hk)
  · cases hnew'.symm.trans (hlookup.trans hk)
  · cases hj.symm.trans (hlookup.trans hnew)
  · refine ⟨R', hcount ▸ heq', Program.eq_of_toStore ?_⟩
    change R'.toStore.unlined = P'.toStore.unlined
    rw [hR', hR, Store.unlined_push, Store.unlined_push, hstore]
  · rw [hcount, hlimits] at hfull
    exact absurd hroom (Nat.not_lt.2 hfull)

end DeskCalc
