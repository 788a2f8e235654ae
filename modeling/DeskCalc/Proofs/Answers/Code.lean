import DeskCalc.Proofs.Answers.Ends
import DeskCalc.Proofs.Returns

/-!
# The code of an answer

Whether `read()` is allowed is passed on to every nested expression, so that the answer to a
`read()` asks for no other one, however deep (`Compile.inert`). The code of an answer leaves one
value and returns it, and a text that is refused leaves no code (`Session.compileAnswer_code`).
-/

namespace DeskCalc

/-- The instruction neither returns from a function nor asks for an answer. -/
def Opcode.Inert (op : Opcode) : Prop := op.isReturn = false ∧ op ≠ .query .read

/-- The code of an answer returns at its end, and what comes `before` neither returns nor reads. -/
structure Code.Answers (c : Code) (before : List Instruction) : Prop where
  whole : ∃ is, c.Holds is
  last : ∃ i, c.instructions = before ++ [i] ∧ i.op = .ret
  inert : ∀ i ∈ before, i.op.Inert

theorem Pass.function?_recode {p : Pass} {f : Function}
    (hf : p.program.function? p.target = some f) (c : Code) :
    (p.recode c).program.function? (p.recode c).target = some { f with code := c } := by
  show (p.program.modifyFunction _ p.target).function? p.target = _
  rw [Program.function?_modifyFunction, if_pos rfl, hf]
  rfl

namespace Compile

variable {p : Pass}

/-- **No return is written, and no `read` where it is not allowed.** -/
def inert : Keeping where
  Pre p := ∃ f, p.program.function? p.target = some f ∧ f.code.Only Opcode.Inert
  Done _ _ := True
  Left _ _ _ := True
  Known _ := True
  Fit _ := True
  reads := false
  known _ := ⟨trivial, fun _ _ _ _ => trivial⟩
  fit _ _ := trivial
  trans _ _ := trivial
  left _ _ _ := trivial
  leave _ _ := trivial
  done h _ hprogram htarget _ := ⟨by rwa [hprogram, htarget], trivial⟩
  emit {p _ i} h hs hi := by
    obtain ⟨f, hf, hcode⟩ := h
    obtain ⟨hreturn, hlength, hread⟩ := hi.usual hs
    refine (ensures_self _).mono (fun _ q hq => ⟨?_, trivial⟩) fun _ _ _ => trivial
    rw [emitWith_recode hf] at hq
    cases hq
    refine ⟨_, Pass.function?_recode hf _, ?_⟩
    exact hcode.write hlength ⟨hreturn, fun hop => nomatch hread hop⟩ _
  enter {p} h e span _ _ := by
    obtain ⟨f, hf, hcode⟩ := h
    refine (ensures_self _).mono (fun k q hq => ⟨?_, trivial⟩) fun _ _ _ => trivial
    obtain ⟨P, hP, rfl⟩ := exists_of_intern hq
    exact ⟨f, (TableEntry.extends_enter hP).1.function?_of_nil hf, hcode⟩
  suppressValue {p} h t := by
    obtain ⟨f, hf, hcode⟩ := h
    refine (ensures_self _).mono (fun b q hq => ⟨?_, trivial⟩) fun _ _ _ => trivial
    rw [suppressValue_recode hf] at hq
    cases hd : f.code.discardValue? t p.token.span.line with
    | none =>
      rw [hd] at hq
      cases hq
      exact ⟨f, hf, hcode⟩
    | some c =>
      rw [hd] at hq
      cases hq
      exact ⟨_, Pass.function?_recode hf _, hcode.discardValue (fun op => And.intro) hd⟩

/-- **An answer is compiled to the code of an answer.** -/
theorem answer_code (hp : p.InOrder) (heof : p.token.kind ≠ .eof) {f : Function}
    (hf : p.program.function? p.target = some f) (hempty : f.code = {}) :
    Accepts answer p fun _ q => ∃ g before, q.program.function? p.target = some g ∧
      g.code.Answers before ∧ (p.upcoming.length ≤ wordBound →
        ∃ x : Entry, x.isScalar = true ∧ simulate before [] = some [x]) := by
  have hstart : inert.Pre p := ⟨f, hf, hempty ▸ Code.only_empty⟩
  have hpermits : Permits inert.parts { answer := true, needsValue := true } := ⟨by simp⟩
  rw [answer, Accepts, ensures_bind]
  refine ((ensures_advance hp heof).and (inert.advance hstart)).mono ?_ fun _ _ _ => trivial
  rintro - q ⟨⟨hq, -, -⟩, hcode, -⟩
  rw [ensures_bind]
  refine ((expression_sound (hq.inOrder hp)).and (inert.keeps hcode)).mono ?_ fun _ _ _ => trivial
  rintro - r ⟨⟨e, u, ⟨he, -⟩, hu, hr⟩, ⟨g, hg, honly⟩, -⟩
  obtain ⟨is, his, -, hrun⟩ := runs_of_compiles he hu hr (fun _ => rfl) (by simp)
  have hholds : g.code.Holds is := by
    obtain ⟨f', c, hf', hc, hg'⟩ := (hq.trans his).program.written
    cases hf.symm.trans hf'
    rw [(hq.trans his).target] at hg
    cases hg.symm.trans hg'
    have hempty' := Code.Holds.writes .empty_nil (hempty ▸ hc)
    simpa using hempty'
  refine (ensures_self _).mono (fun _ s hs => ?_) fun _ _ _ => trivial
  rw [emit, emitWith_recode hg] at hs
  cases hs
  have hcode := Pass.function?_recode hg (g.code.write .ret [] r.token.span.line)
  rw [show (r.recode _).target = p.target from (hq.trans his).target] at hcode
  refine ⟨_, g.code.instructions, hcode, ⟨⟨_, hholds.writes (.single _ rfl _)⟩, ?_, honly.good⟩, ?_⟩
  · exact ⟨_, hholds.instructions_write rfl, rfl⟩
  · intro hshort
    have hle : q.upcoming.length ≤ wordBound := by
      have := hq.length_eq
      omega
    refine ⟨e.entry, Expr.isScalar_entry e he, ?_⟩
    rw [hholds.instructions_eq]
    exact simulate_located (hrun hle []) 0

end Compile

namespace Session

/-- **The answer to a `read()` reads nothing itself, and returns one value.** A text that is refused
leaves no code. -/
theorem compileAnswer_code (s : Session) (text : String) :
    ((s.compileAnswer text).1 = .ok () →
      ∃ before, (s.compileAnswer text).2.program.answer.code.Answers before ∧
        (text.toList.length < wordBound →
          ∃ x : Entry, x.isScalar = true ∧ simulate before [] = some [x])) ∧
      ((s.compileAnswer text).1 ≠ .ok () → (s.compileAnswer text).2.program.answer.code = {}) := by
  have hp : (Pass.start s.answering text).InOrder := inOrder_start rfl text
  have heof : (Pass.start s.answering text).token.kind ≠ .eof := by simp [Pass.start]
  cases hm : Compile.answer (Pass.start s.answering text) with
  | ok _ q =>
    rw [compileAnswer_of_ok hm]
    refine ⟨fun _ => ?_, absurd rfl⟩
    obtain ⟨g, before, hg, hcode, hrun⟩ := (Compile.answer_code hp heof rfl rfl).ok hm
    cases hg
    exact ⟨before, hcode, fun hshort =>
      hrun (Nat.le_trans (length_readTokens_le s.strictness text) hshort)⟩
  | error e q =>
    obtain ⟨⟨d, rfl⟩, -⟩ := (Compile.answer_sound hp heof).error hm
    have hrun : s.answering.run text Compile.answer = (.error (.refused d), q.toSession) := by
      rw [run, hm]
    rw [answering] at hrun
    rw [compileAnswer, hrun]
    exact ⟨by simp, fun _ => rfl⟩

/-- Calls, elements and steps inside each other; a `read()` among them is refused. -/
theorem nestedAnswer_code :
    (((new {}).compileAnswer "f(a[sqrt(++b)], 2)\n").1 = .ok () ∧
      ∃ before, ((new {}).compileAnswer "f(a[sqrt(++b)], 2)\n").2.program.answer.code.Answers
        before) ∧
    ((new {}).compileAnswer "f(a[sqrt(++b)], a[read()])\n").1 ≠ .ok () ∧
      ((new {}).compileAnswer "f(a[sqrt(++b)], a[read()])\n").2.program.answer.code = {} := by
  have hok : ((new {}).compileAnswer "f(a[sqrt(++b)], 2)\n").1 = .ok () := by decide +kernel
  have hrefused : ((new {}).compileAnswer "f(a[sqrt(++b)], a[read()])\n").1 ≠ .ok () := by
    decide +kernel
  obtain ⟨before, hcode, -⟩ := (compileAnswer_code _ _).1 hok
  exact ⟨⟨hok, before, hcode⟩, hrefused, (compileAnswer_code _ _).2 hrefused⟩

end Session

end DeskCalc
