import DeskCalc.Proofs.Outcome
import DeskCalc.Proofs.Program

/-!
# Reading tokens and writing code

Most parts of the compiler move through the tokens, write code to one function, enter names in the
tables of the program, and leave everything else alone. `p.Progress u is q` is this in one
relation: from the pass `p` to the pass `q` the tokens `u` were read and the instructions `is` were
written. It composes (`Pass.Progress.trans`), so that what a part of the compiler does is the sum of
what its steps do, and a part that fails has still made some progress.

`Pass.InOrder` is what every pass over a text satisfies: the tokens end with the end of the text,
an error is carried by an error token, no name is reserved, and there is a function to write to.
-/

namespace DeskCalc

namespace Pass

/-- The tokens from the current one on. -/
def rest (p : Pass) : List Token := p.token :: p.upcoming.map (·.token)

/-- What holds of a pass over the tokens of a text. -/
structure InOrder (p : Pass) : Prop where
  ended : ∃ t, p.rest.getLast? = some t ∧ t.kind = .eof
  flawed : ∀ r ∈ p.upcoming, r.error.isSome → r.token.kind = .error
  named : ∀ t ∈ p.rest, t.kind = .name → t.text ≠ "(main)" ∧ t.text ≠ "(read)"
  function : ∃ f, p.program.function? p.target = some f

/-- From `p` to `q` the tokens `u` were read and the instructions `is` were written. -/
structure Progress (p : Pass) (u : List Token) (is : List Command) (q : Pass) : Prop where
  program : p.program.Extends p.target is q.program
  rest : p.rest = u ++ q.rest
  upcoming : q.upcoming <:+ p.upcoming
  strictness : q.strictness = p.strictness
  blocks : q.blocks = p.blocks
  exits : q.exits = p.exits
  continues : q.continues = p.continues
  target : q.target = p.target
  autoAllowed : q.autoAllowed = p.autoAllowed
  checkpoint : q.checkpoint = p.checkpoint
  quitting : q.quitting = p.quitting
  previous : q.previous = (u.getLast?.map (·.kind)).getD p.previous

namespace Progress

variable {p q r : Pass} {u v : List Token} {is js : List Command}

theorem refl (hp : p.InOrder) : p.Progress [] [] p where
  program := .refl hp.function.choose_spec
  rest := rfl
  upcoming := List.suffix_rfl
  strictness := rfl
  blocks := rfl
  exits := rfl
  continues := rfl
  target := rfl
  autoAllowed := rfl
  checkpoint := rfl
  quitting := rfl
  previous := rfl

theorem trans (h : p.Progress u is q) (h' : q.Progress v js r) :
    p.Progress (u ++ v) (is ++ js) r where
  program := h.program.trans (h.target ▸ h'.program)
  rest := by rw [h.rest, h'.rest, List.append_assoc]
  upcoming := h'.upcoming.trans h.upcoming
  strictness := h'.strictness.trans h.strictness
  blocks := h'.blocks.trans h.blocks
  exits := h'.exits.trans h.exits
  continues := h'.continues.trans h.continues
  target := h'.target.trans h.target
  autoAllowed := h'.autoAllowed.trans h.autoAllowed
  checkpoint := h'.checkpoint.trans h.checkpoint
  quitting := h'.quitting.trans h.quitting
  previous := by
    rw [h'.previous, h.previous, List.getLast?_append]
    cases v.getLast? <;> rfl

theorem length_eq (h : p.Progress u is q) : q.upcoming.length + u.length = p.upcoming.length := by
  have := congrArg List.length h.rest
  simp only [Pass.rest, List.length_cons, List.length_append, List.length_map] at this
  omega

theorem inOrder (h : p.Progress u is q) (hp : p.InOrder) : q.InOrder where
  ended := by
    obtain ⟨t, ht, hk⟩ := hp.ended
    refine ⟨t, ?_, hk⟩
    rw [h.rest, List.getLast?_append] at ht
    simpa [Pass.rest, List.getLast?_cons] using ht
  flawed r hr := hp.flawed r (h.upcoming.mem hr)
  named t ht := hp.named t (h.rest ▸ List.mem_append_right u ht)
  function := by
    obtain ⟨f, c, -, -, hq⟩ := h.program.written
    exact ⟨_, h.target ▸ hq⟩

end Progress

end Pass

/-- A part of the compiler that refuses the source has made some progress before. -/
def Pass.Refused (p : Pass) (e : Stop) (q : Pass) : Prop :=
  e.IsRefusal ∧ ∃ u is, p.Progress u is q

theorem Pass.Progress.refused {p q r : Pass} {u : List Token} {is : List Command} {e : Stop}
    (h : p.Progress u is q) (h' : q.Refused e r) : p.Refused e r := by
  obtain ⟨he, v, js, hv⟩ := h'
  exact ⟨he, _, _, h.trans hv⟩

namespace Compile

variable {α : Type} {p : Pass} {Q : α → Pass → Prop} {E : Stop → Pass → Prop}

/-! ## Refusing -/

@[simp] theorem ensures_refuse (cause : Cause) (span : Span) (name : Option String) :
    Ensures (refuse cause span name) p Q E ↔ E (.refused ⟨cause, span, name⟩) p := Iff.rfl

@[simp] theorem ensures_refuseHere (cause : Cause) :
    Ensures (refuseHere cause) p Q E ↔ E (.refused ⟨cause, p.token.span, none⟩) p := Iff.rfl

theorem refused_refl (hp : p.InOrder) (d : Diagnostic) : p.Refused (.refused d) p :=
  ⟨⟨d, rfl⟩, [], [], .refl hp⟩

theorem ensures_unexpected (hE : ∀ d, E (.refused d) p) :
    Ensures unexpected p Q E := by
  simp only [unexpected, ensures_bind, ensures_get, ensures_ite, ensures_refuse]
  split <;> exact hE _

/-- A report adds a warning, or it refuses the source. -/
theorem ensures_report {Q : Unit → Pass → Prop} (hp : p.InOrder) {v : Violation} {span : Span}
    (hQ : ∀ q, p.Progress [] [] q → q.operators = p.operators → q.rest = p.rest → Q () q)
    (hE : p.strictness = .strict → ∀ d, E (.refused d) p) :
    Ensures (report v span) p Q E := by
  simp only [report, ensures_bind, ensures_get]
  split
  · exact hQ p (.refl hp) rfl rfl
  · exact hQ _ { Pass.Progress.refl hp with } rfl rfl
  · next h => exact hE h _

/-! ## Tokens -/

@[simp] theorem ensures_kind {Q : Token.Kind → Pass → Prop} :
    Ensures kind p Q E ↔ Q p.token.kind p := Iff.rfl

@[simp] theorem ensures_here {Q : Span → Pass → Prop} :
    Ensures here p Q E ↔ Q p.token.span p := Iff.rfl

@[simp] theorem ensures_isAt {Q : Bool → Pass → Prop} (k : Token.Kind) :
    Ensures (isAt k) p Q E ↔ Q (p.token.kind == k) p := Iff.rfl

@[simp] theorem ensures_topBlock {Q : Block → Pass → Prop} :
    Ensures topBlock p Q E ↔ Q p.blocks.top p := Iff.rfl

@[simp] theorem ensures_atDelimiter {Q : Bool → Pass → Prop} :
    Ensures atDelimiter p Q E ↔ Q (isDelimited p) p := Iff.rfl

/-- Where more tokens come, moving on reads one. It fails only at an error token. -/
theorem ensures_advance_of_cons (hp : p.InOrder) {r : Reading} {rest : List Reading}
    (hu : p.upcoming = r :: rest) :
    Ensures advance p
      (fun _ q => p.Progress [p.token] [] q ∧ q.operators = p.operators ∧ q.program = p.program)
      (fun e q => e.IsRefusal ∧ p.Progress [p.token] [] q ∧ q.token.kind = .error) := by
  obtain ⟨f, hf⟩ := hp.function
  have hprogress (q : Pass) (hq : q = { p with
      previous := p.token.kind
      token := r.token
      upcoming := rest
      warnings := p.warnings ++ r.warnings.map Notice.toDiagnostic }) :
      p.Progress [p.token] [] q := by
    subst hq
    exact { Pass.Progress.refl hp with
      program := .refl hf
      rest := by simp [Pass.rest, hu]
      upcoming := hu ▸ List.suffix_cons r rest
      previous := rfl }
  simp only [advance, ensures_bind, ensures_get, hu, ensures_set]
  cases he : r.error with
  | none => exact ⟨hprogress _ rfl, rfl, rfl⟩
  | some n => exact ⟨⟨_, rfl⟩, hprogress _ rfl, hp.flawed r (by simp [hu]) (by simp [he])⟩

/-- Moving on reads one token before the end of the text. -/
theorem ensures_advance (hp : p.InOrder) (ht : p.token.kind ≠ .eof) :
    Ensures advance p
      (fun _ q => p.Progress [p.token] [] q ∧ q.operators = p.operators ∧ q.program = p.program)
      (fun e q => e.IsRefusal ∧ p.Progress [p.token] [] q ∧ q.token.kind = .error) := by
  cases hu : p.upcoming with
  | nil =>
    obtain ⟨t, hlast, hk⟩ := hp.ended
    simp only [Pass.rest, hu, List.map_nil, List.getLast?_singleton, Option.some.injEq] at hlast
    exact absurd (hlast ▸ hk) ht
  | cons r rest => exact ensures_advance_of_cons hp hu

/-- Moving past a token of a kind that must be there. -/
theorem ensures_expect {Q : Unit → Pass → Prop} (k : Token.Kind) :
    Ensures (expect k) p Q E ↔
      if p.token.kind = k then Ensures advance p Q E else Ensures unexpected p Q E := by
  simp [expect]

/-- Moving past tokens stops at the first one that is not of the kind. -/
theorem ensures_skipWhile (hp : p.InOrder) {f : Token.Kind → Bool} (hf : f .eof = false) :
    Ensures (skipWhile f) p
      (fun _ q => ∃ u, p.Progress u [] q ∧ q.operators = p.operators ∧
        (∀ t ∈ u, f t.kind = true) ∧ f q.token.kind = false)
      p.Refused := by
  refine ensures_perToken (fun _ q => ∃ u, p.Progress u [] q ∧ q.operators = p.operators ∧
    ∀ t ∈ u, f t.kind = true) ?_ ⟨[], .refl hp, rfl, by simp⟩
  rintro - q ⟨u, hu, ho, hall⟩
  simp only [skipStep, ensures_bind, ensures_kind, ensures_ite, ensures_pure]
  split
  · next hq =>
    have heof : q.token.kind ≠ .eof := by
      intro h
      simp [h, hf] at hq
    refine (ensures_advance (hu.inOrder hp) heof).mono ?_ ?_
    · rintro - r ⟨hr, hor, -⟩
      refine ⟨⟨u ++ [q.token], by simpa using hu.trans hr, hor.trans ho, ?_⟩, ?_⟩
      · intro t ht
        rcases List.mem_append.1 ht with ht | ht
        · exact hall t ht
        · cases List.mem_singleton.1 ht
          exact hq
      · have := hr.length_eq
        simp only [List.length_singleton] at this
        omega
    · rintro e r ⟨he, hr, -⟩
      exact hu.refused ⟨he, _, _, hr⟩
  · next hq => exact ⟨u, hu, ho, hall, by simpa using hq⟩

/-- Nothing is skipped at a token of another kind. -/
theorem ensures_skipWhile_of_not {Q : Unit → Pass → Prop} {f : Token.Kind → Bool}
    (h : f p.token.kind = false) (hQ : Q () p) : Ensures (skipWhile f) p Q E := by
  simp only [skipWhile, perToken, ensures_bind, ensures_get]
  refine ensures_iterate_of_step (fun q => q.upcoming.length) (Nat.le_refl _) ?_
  simpa [skipStep, h] using hQ

/-! ## Code and names -/

/-- Writing an instruction cannot fail. -/
theorem ensures_emitWith {Q : Unit → Pass → Prop} (hp : p.InOrder) {op : Opcode}
    {operands : List Nat} (hop : operands.length = op.operandCount)
    (hQ : ∀ q, p.Progress [] [(op, operands)] q → q.operators = p.operators →
      q.rest = p.rest → Q () q) :
    Ensures (emitWith op operands) p Q E := by
  obtain ⟨f, hf⟩ := hp.function
  have hhas : p.program.hasFunction p.target = true := by
    rw [Program.hasFunction_eq, hf]
    rfl
  simp only [emitWith, modifyFunction, ensures_bind, ensures_here, ensures_get, ensures_ite, hhas,
    if_true, ensures_set]
  refine hQ _ ?_ rfl rfl
  have hext := Program.extends_write hf (Code.Writes.single f.code hop p.token.span.line)
  refine { Pass.Progress.refl hp with program := ?_ }
  have heq : p.program.modifyFunction
      (fun f => { f with code := f.code.write op operands p.token.span.line }) p.target =
      p.program.modifyFunction
        (fun g => { g with code := f.code.write op operands p.token.span.line }) p.target :=
    Program.modifyFunction_congr hf rfl
  rw [heq]
  exact hext

/-- Entering a name in a table. -/
theorem ensures_intern {Q : Nat → Pass → Prop} (hp : p.InOrder) (e : TableEntry) {span : Span}
    (hQ : ∀ i q, e.At q.program i → p.Progress [] [] q → q.operators = p.operators →
      q.rest = p.rest → Q i q)
    (hE : ∀ d, (Stop.refused d).IsShortage → E (.refused d) p) :
    Ensures (intern (e.enter span)) p Q E := by
  obtain ⟨f, hf⟩ := hp.function
  simp only [intern, ensures_bind, ensures_get]
  cases h : e.enter span p.program with
  | ok r =>
    obtain ⟨i, P⟩ := r
    obtain ⟨hP, hi⟩ := TableEntry.extends_of_function hf h
    simp only [lift, ensures_pure, ensures_modify]
    exact hQ i _ hi { Pass.Progress.refl hp with program := hP } rfl rfl
  | error d =>
    simp only [lift, ensures_throw]
    exact hE _ (TableEntry.eq_shortage_of_enter h ▸ e.isShortage span)

end Compile

end DeskCalc
