import DeskCalc.Proofs.Rollback

/-!
# Answers to `read()`

The answer to a `read()` is compiled while a chunk may be half done: blocks may be open, and an `if`
may wait for its `else`. Whatever the session is and whatever the text, `Session.compileAnswer`
leaves all that is open as it was, and every function but the one of the answer
(`Session.compileAnswer_undisturbed`). The tables get new entries at their ends.

Code always goes to the main program afterwards. Inside a definition this is not where it went
before (`Session.answerInDefinition_retargets`).
-/

namespace DeskCalc

/-- An entry at the same place for every old one makes the old names a beginning of the new ones. -/
theorem Program.Grows.names_isPrefix {P Q : Program} (h : P.Grows Q) :
    P.functions.map (·.name) <+: Q.functions.map (·.name) := by
  refine List.prefix_iff_getElem?.2 fun i hi => ?_
  rw [List.length_map] at hi
  have hP : P.function? i = some P.functions[i] := by
    rw [← getElem?_functions, List.getElem?_eq_getElem hi]
  obtain ⟨g, hg, hname⟩ := h.names i _ hP
  rw [List.getElem?_map, getElem?_functions, hg, List.getElem_map]
  exact congrArg some hname

namespace Session

/-- From `s` to `t` what is open stayed open, every function but that of the answer stayed as it
was, and the tables only got entries at their ends. -/
structure Undisturbed (s t : Session) : Prop where
  blocks : t.blocks = s.blocks
  exits : t.exits = s.exits
  continues : t.continues = s.continues
  autoAllowed : t.autoAllowed = s.autoAllowed
  checkpoint : t.checkpoint = s.checkpoint
  functions : ∀ id f, id ≠ Program.answerId → s.program.function? id = some f →
    t.program.function? id = some f
  /-- A function that is new has been called and not been defined. -/
  fresh : ∀ id f, s.program.function? id = none → t.program.function? id = some f →
    f = { name := f.name }
  names : s.program.functions.map (·.name) <+: t.program.functions.map (·.name)
  vars : s.program.vars.entries.toList <+: t.program.vars.entries.toList
  arrays : s.program.arrays.entries.toList <+: t.program.arrays.entries.toList
  constants : s.program.constants.entries.toList <+: t.program.constants.entries.toList

variable {s : Session}

/-- The answer gets code while the program becomes `Q`, and afterwards it changes. -/
theorem undisturbed_of_extends {t : Session} {is : List Command} {Q : Program}
    (change : Function → Function) (hQ : s.clearAnswer.program.Extends Program.answerId is Q)
    (hprogram : t.program = Q.modifyFunction change Program.answerId) (hblocks : t.blocks = s.blocks)
    (hexits : t.exits = s.exits) (hcontinues : t.continues = s.continues)
    (hauto : t.autoAllowed = s.autoAllowed) (hcheckpoint : t.checkpoint = s.checkpoint) :
    s.Undisturbed t := by
  have hold (id : Nat) (hid : id ≠ Program.answerId) :
      s.clearAnswer.program.function? id = s.program.function? id :=
    Program.function?_answer _ _ hid
  have hnew (id : Nat) (hid : id ≠ Program.answerId) :
      t.program.function? id = Q.function? id := by
    rw [hprogram]
    exact Program.function?_answer _ _ hid
  have hgrows : s.program.Grows t.program := by
    have hcleared : s.program.Grows (s.program.modifyFunction Function.clear Program.answerId) :=
      .modify
    rw [hprogram]
    exact (hcleared.trans hQ.grows).trans .modify
  exact {
    blocks := hblocks
    exits := hexits
    continues := hcontinues
    autoAllowed := hauto
    checkpoint := hcheckpoint
    functions := fun id f hid hf => by
      rw [hnew id hid]
      exact hQ.others id f hid (hold id hid ▸ hf)
    fresh := fun id f hnone hf => by
      have hid : id ≠ Program.answerId := by
        rintro rfl
        cases hnone
      exact hQ.fresh id f (hold id hid ▸ hnone) (hnew id hid ▸ hf)
    names := hgrows.names_isPrefix
    vars := Table.isPrefix_of_get? hgrows.vars
    arrays := Table.isPrefix_of_get? hgrows.arrays
    constants := Table.isPrefix_of_get? hgrows.constants }

/-- The program grows by the code of the answer, which is thrown away if the text is refused. -/
theorem program_compileAnswer (s : Session) (text : String) :
    ∃ is Q change, s.clearAnswer.program.Extends Program.answerId is Q ∧
      (s.compileAnswer text).2.program = Q.modifyFunction change Program.answerId ∧
      (change = id ∨ change = Function.clear) := by
  obtain ⟨u, is, q, hq, ⟨-, heq⟩ | ⟨d, -, heq⟩⟩ := compileAnswer_cases s text <;> rw [heq]
  · exact ⟨is, q.program, id, hq.program, rfl, .inl rfl⟩
  · exact ⟨is, q.program, Function.clear, hq.program, rfl, .inr rfl⟩

theorem undisturbed_compileAnswer (s : Session) (text : String) :
    s.Undisturbed (s.compileAnswer text).2 := by
  obtain ⟨u, is, q, hq, ⟨-, heq⟩ | ⟨d, -, heq⟩⟩ := compileAnswer_cases s text <;> rw [heq]
  · exact undisturbed_of_extends id hq.program rfl hq.blocks hq.exits hq.continues hq.autoAllowed
      hq.checkpoint
  · exact undisturbed_of_extends Function.clear hq.program rfl hq.blocks hq.exits hq.continues
      hq.autoAllowed hq.checkpoint

/-- **Compiling an answer does not disturb the session**, whether it succeeds or not. Code goes to
the main program afterwards. -/
theorem compileAnswer_undisturbed (s : Session) (text : String) :
    s.Undisturbed (s.compileAnswer text).2 ∧
      (s.compileAnswer text).2.target = Program.mainId :=
  ⟨undisturbed_compileAnswer s text, (main_compileAnswer s text).2.2⟩

/-- The body of a function is open, and nothing has been written to it. -/
def insideDefinition : Session := ((new {}).compile "define f() \x7b\n").2

/-- The answer came while the body was open. -/
def answeredInDefinition : Session := (insideDefinition.compileAnswer "1\n").2

/-- An answer inside a definition takes the code that follows away from the function: it goes to the
main program, and the brace that ends the body makes the main program return. -/
theorem answerInDefinition_retargets :
    insideDefinition.target ≠ Program.mainId ∧ answeredInDefinition.target = Program.mainId ∧
      (answeredInDefinition.compile "x\n\x7d\n").2.program.main.code.lastOpcode? = some .ret0 := by
  decide +kernel

end Session

end DeskCalc
