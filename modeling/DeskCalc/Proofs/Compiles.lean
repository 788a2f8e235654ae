import DeskCalc.Proofs.Comparisons
import DeskCalc.Proofs.Progress
import Mathlib.Data.List.Forall2

/-!
# Tokens read and symbolic code written

`p.Compiles u code q` says that from the pass `p` to the pass `q` the tokens `u` were read and
`code` was written, where the operands of the instructions are the indices that the tables of `q`
give to their names, and that the stack of operators is as before. `p.Reads array e q` says so of
the words and the code of an expression.

What follows says what the steps of the compiler add to this. In a name that ends in `_step` the
steps cannot fail, or it is left open what a failure is. Those that end in `_sound` take a failure
as a refusal, on the way from a pass `p₀` where an expression began.
-/

namespace DeskCalc

/-- In the program `P` the instruction `i` is the symbolic instruction with indices for names. -/
def Program.Denotes (P : Program) : Symbolic → Command → Prop
  | .plain op, i => i = (op, [])
  | .number text, i => ∃ k, i = (.num, [k]) ∧ P.constants.get? k = some (.number text)
  | .string text, i => ∃ k, i = (.str, [k]) ∧ P.constants.get? k = some (.string text)
  | .var name, i => ∃ k, i = (.var, [k]) ∧ P.vars.get? k = some name
  | .elem name, i => ∃ k, i = (.elem, [k]) ∧ P.arrays.get? k = some name
  | .array name, i => ∃ k, i = (.array, [k]) ∧ P.arrays.get? k = some name
  | .call count name, i =>
    ∃ k f, i = (.call, [count, k]) ∧ P.function? k = some f ∧ f.name = name

/-- An index keeps its meaning while the program grows. -/
theorem Program.Denotes.mono {P Q : Program} (h : P.Grows Q) {s : Symbolic} {i : Command}
    (hs : P.Denotes s i) : Q.Denotes s i := by
  cases s with
  | plain op => exact hs
  | number text =>
    obtain ⟨k, hi, hk⟩ := hs
    exact ⟨k, hi, h.constants _ _ hk⟩
  | string text =>
    obtain ⟨k, hi, hk⟩ := hs
    exact ⟨k, hi, h.constants _ _ hk⟩
  | var name =>
    obtain ⟨k, hi, hk⟩ := hs
    exact ⟨k, hi, h.vars _ _ hk⟩
  | elem name =>
    obtain ⟨k, hi, hk⟩ := hs
    exact ⟨k, hi, h.arrays _ _ hk⟩
  | array name =>
    obtain ⟨k, hi, hk⟩ := hs
    exact ⟨k, hi, h.arrays _ _ hk⟩
  | call count name =>
    obtain ⟨k, f, hi, hk, hf⟩ := hs
    obtain ⟨g, hg, hgf⟩ := h.names k f hk
    exact ⟨k, g, hi, hg, hgf.trans hf⟩

/-- The words of some tokens, line feeds apart. -/
def wordsOf (u : List Token) : List Word := (u.filter (·.kind != .newline)).map Token.word

@[simp] theorem wordsOf_nil : wordsOf [] = [] := rfl

@[simp] theorem wordsOf_append (u v : List Token) : wordsOf (u ++ v) = wordsOf u ++ wordsOf v := by
  simp [wordsOf]

theorem wordsOf_symbol {t : Token} {s : Symbol} (h : t.kind = .symbol s) (u : List Token) :
    wordsOf (t :: u) = s.word :: wordsOf u := by
  simp [wordsOf, Token.word, h, Symbol.word]

theorem wordsOf_keyword {t : Token} {k : Keyword} (h : t.kind = .keyword k) (u : List Token) :
    wordsOf (t :: u) = k.word :: wordsOf u := by
  simp [wordsOf, Token.word, h, Keyword.word]

theorem wordsOf_name {t : Token} (h : t.kind = .name) (u : List Token) :
    wordsOf (t :: u) = (.name, t.text) :: wordsOf u := by
  simp [wordsOf, Token.word, h]

namespace Pass

variable {u : List Token} {code : List Symbolic}

/-- From `p` to `q` the tokens `u` were read and `code` was written. -/
def Emits (p : Pass) (u : List Token) (code : List Symbolic) (q : Pass) : Prop :=
  ∃ is, p.Progress u is q ∧ List.Forall₂ q.program.Denotes code is

theorem Emits.trans {p q r : Pass} {v : List Token} {code' : List Symbolic} (h : p.Emits u code q)
    (h' : q.Emits v code' r) : p.Emits (u ++ v) (code ++ code') r := by
  obtain ⟨is, his, hd⟩ := h
  obtain ⟨js, hjs, hd'⟩ := h'
  refine ⟨is ++ js, his.trans hjs, ?_⟩
  exact List.rel_append (hd.imp fun _ _ => Program.Denotes.mono hjs.program.grows) hd'

theorem Emits.inOrder {p q : Pass} (h : p.Emits u code q) (hp : p.InOrder) : q.InOrder := by
  obtain ⟨is, his, -⟩ := h
  exact his.inOrder hp

theorem Emits.refused {p q r : Pass} (h : p.Emits u code q) {e : Stop} (h' : q.Refused e r) :
    p.Refused e r := by
  obtain ⟨is, his, -⟩ := h
  exact his.refused h'

/-- From `p` to `q` the tokens `u` were read and `code` was written, and the operators that wait
are the same. -/
structure Compiles (p : Pass) (u : List Token) (code : List Symbolic) (q : Pass) : Prop where
  progress : p.Emits u code q
  operators : q.operators = p.operators

namespace Compiles

variable {p q r : Pass} {u v : List Token} {code code' : List Symbolic}

theorem refl (hp : p.InOrder) : p.Compiles [] [] p := ⟨⟨[], .refl hp, .nil⟩, rfl⟩

section

variable (h : p.Compiles u code q)
include h

theorem trans (h' : q.Compiles v code' r) : p.Compiles (u ++ v) (code ++ code') r :=
  ⟨h.progress.trans h'.progress, h'.operators.trans h.operators⟩

theorem inOrder (hp : p.InOrder) : q.InOrder := h.progress.inOrder hp

theorem rest_eq : p.rest = u ++ q.rest := by
  obtain ⟨is, his, -⟩ := h.progress
  exact his.rest

theorem strictness_eq : q.strictness = p.strictness := by
  obtain ⟨is, his, -⟩ := h.progress
  exact his.strictness

theorem length_eq : q.upcoming.length + u.length = p.upcoming.length := by
  obtain ⟨is, his, -⟩ := h.progress
  exact his.length_eq

theorem refused {e : Stop} (h' : q.Refused e r) : p.Refused e r :=
  h.progress.refused h'

theorem refusedHere (hp : p.InOrder) {e : Stop} (he : e.IsRefusal) : p.Refused e q := by
  obtain ⟨d, rfl⟩ := he
  exact h.refused (Compile.refused_refl (h.inOrder hp) d)

end

end Compiles

end Pass

namespace Compile

variable {α : Type} {p₀ p : Pass} {u : List Token} {code : List Symbolic} {E : Stop → Pass → Prop}
  {Q : Unit → Pass → Prop}

/-! ## Steps -/

section

variable (hp₀ : p₀.InOrder) (h : p₀.Compiles u code p)
include hp₀ h

/-- Moving on, on the way from `p₀`. -/
theorem advance_sound (ht : p.token.kind ≠ .eof)
    (hQ : ∀ q, p₀.Compiles (u ++ [p.token]) code q → q.program = p.program → Q () q) :
    Ensures advance p Q p₀.Refused := by
  refine (ensures_advance (h.inOrder hp₀) ht).mono ?_ ?_
  · rintro - q ⟨hq, ho, hprogram⟩
    have : p.Compiles [p.token] [] q := ⟨⟨[], hq, .nil⟩, ho⟩
    exact hQ q (by simpa using h.trans this) hprogram
  · rintro e q ⟨he, hq, -⟩
    exact h.refused ⟨he, _, _, hq⟩

/-- Moving past a token that must be there, on the way from `p₀`. -/
theorem expect_sound {k : Token.Kind} (hk : k ≠ .eof)
    (hQ : p.token.kind = k → ∀ q, p₀.Compiles (u ++ [p.token]) code q →
      q.program = p.program → Q () q) : Ensures (expect k) p Q p₀.Refused := by
  rw [ensures_expect]
  split
  · next hat => exact advance_sound hp₀ h (hat ▸ hk) (hQ hat)
  · exact ensures_unexpected fun d => h.refusedHere hp₀ ⟨d, rfl⟩

theorem unexpected_sound {Q : α → Pass → Prop} : Ensures unexpected p Q p₀.Refused :=
  ensures_unexpected fun d => h.refusedHere hp₀ ⟨d, rfl⟩

/-- Writing an instruction, on the way from `p₀`. -/
theorem emitWith_step {op : Opcode} {operands : List Nat} (hop : operands.length = op.operandCount)
    {s : Symbolic} (hs : p.program.Denotes s (op, operands))
    (hQ : ∀ q, p₀.Compiles u (code ++ [s]) q → q.rest = p.rest → Q () q) :
    Ensures (emitWith op operands) p Q E := by
  refine ensures_emitWith (h.inOrder hp₀) hop fun q hq ho hr => hQ q ?_ hr
  have : p.Compiles [] [s] q :=
    ⟨⟨_, hq, .cons (hs.mono hq.program.grows) .nil⟩, ho⟩
  simpa using h.trans this

theorem emit_step {op : Opcode} (hop : op.operandCount = 0)
    (hQ : ∀ q, p₀.Compiles u (code ++ [.plain op]) q → q.rest = p.rest → Q () q) :
    Ensures (emit op) p Q E :=
  emitWith_step hp₀ h hop.symm (s := .plain op) rfl hQ

end

end Compile

namespace Pass

/-- From `p` to `q` an operand or a nested expression of the language was read and compiled. Where
POSIX is enforced it does not compare. -/
structure Reads (p : Pass) (array : Bool) (e : Expr) (q : Pass) : Prop where
  wellFormed : e.wellFormed array = true
  spare : p.strictness = .strict → comparisons e.words = 0
  compiles : ∃ u, wordsOf u = e.words ∧ p.Compiles u e.postorder q

/-- From `p` to `q` an operand was read and compiled; a whole array is followed by what ends an
argument. -/
structure ReadsLeaf (p : Pass) (array : Bool) (e : Expr) (q : Pass) : Prop
    extends p.Reads array e q where
  leaf : e.isLeaf = true
  followed : e.isWhole = true → q.token.kind = .symbol .comma ∨ q.token.kind = .symbol .rightParen

theorem Reads.length_lt {p q : Pass} {array : Bool} {e : Expr} (h : p.Reads array e q) :
    q.upcoming.length < p.upcoming.length := by
  obtain ⟨u, hu, hc⟩ := h.compiles
  have hne : u ≠ [] := by
    rintro rfl
    exact e.words_ne_nil hu.symm
  have := hc.length_eq
  have := List.length_pos_iff.2 hne
  omega

end Pass

namespace Compile

variable {α : Type} {p₀ p : Pass} {u : List Token} {code : List Symbolic}
  {E : Stop → Pass → Prop} {sub : Sub} {ctx : Context} {n : Nat}

section

variable (hp₀ : p₀.InOrder) (h : p₀.Compiles u code p)
include hp₀ h

/-- Entering a name, on the way from `p₀`. -/
theorem intern_step {Q : Nat → Pass → Prop} (e : TableEntry) {span : Span}
    (hQ : ∀ i q, p₀.Compiles u code q → q.rest = p.rest → e.At q.program i → Q i q)
    (hE : ∀ e : Stop, e.IsShortage → E e p) : Ensures (intern (e.enter span)) p Q E := by
  refine ensures_intern (h.inOrder hp₀) e (fun i q hi hq ho hr => ?_) fun _ => hE _
  have : p.Compiles [] [] q := ⟨⟨[], hq, .nil⟩, ho⟩
  exact hQ i q (by simpa using h.trans this) hr hi

theorem refuse_sound {Q : α → Pass → Prop} {cause : Cause} {span : Span} {name : Option String} :
    Ensures (refuse cause span name) p Q p₀.Refused :=
  h.refusedHere hp₀ ⟨_, rfl⟩

/-- Entering a name, on the way from `p₀`, where a full table is a refusal like any other. -/
theorem intern_sound {Q : Nat → Pass → Prop} (e : TableEntry) {span : Span}
    (hQ : ∀ i q, p₀.Compiles u code q → q.rest = p.rest → e.At q.program i → Q i q) :
    Ensures (intern (e.enter span)) p Q p₀.Refused :=
  intern_step hp₀ h e hQ fun _ he => h.refusedHere hp₀ he.isRefusal

end

/-- The remainder goes to the first element of the array, and the quotient stays. -/
theorem storeRemainder_step (hp : p.InOrder) {index : Nat} {name : String}
    (hindex : p.program.arrays.get? index = some name) {k : Unit → Compile α}
    {Q : α → Pass → Prop}
    (hQ : ∀ q, p.Compiles []
        [.plain .divmod, .plain .zero, .elem name, .plain .swap, .plain (.store none)] q →
      q.rest = p.rest → Ensures (k ()) q Q E) :
    Ensures (emit .divmod) p (fun _ q => Ensures (emit .zero) q (fun _ q =>
      Ensures (emitWith .elem [index]) q (fun _ q => Ensures (emit .swap) q (fun _ q =>
        Ensures (emit (.store none)) q (fun b q => Ensures (k b) q Q E) E) E) E) E) E := by
  refine emit_step hp (.refl hp) rfl fun q₁ hq₁ hr₁ => ?_
  refine emit_step hp hq₁ rfl fun q₂ hq₂ hr₂ => ?_
  obtain ⟨is, his, -⟩ := hq₂.progress
  refine emitWith_step hp hq₂ rfl (s := .elem name)
    ⟨index, rfl, his.program.arrays _ _ hindex⟩ fun q₃ hq₃ hr₃ => ?_
  refine emit_step hp hq₃ rfl fun q₄ hq₄ hr₄ => ?_
  refine emit_step hp hq₄ rfl fun q₅ hq₅ hr₅ => hQ q₅ hq₅ ?_
  rw [hr₅, hr₄, hr₃, hr₂, hr₁]

end Compile

end DeskCalc
