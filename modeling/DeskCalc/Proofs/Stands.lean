import DeskCalc.Proofs.Brackets.Phrases
import DeskCalc.Proofs.Edits
import DeskCalc.Proofs.Expression.Sound

/-!
# Steps inside a statement

A pass `Stands` if its tokens are in order and its program is as `Writing` has it. It `Drafts` if
moreover its draft comes by edits from one that its `Trail` begins with. If the source is refused the
session can be taken back to its checkpoint: it `Fails`.

Inside a statement a pass is `Midway`: it is known which tokens were read since the statement began
and what is open, the `outline`. Where a trail is given it drafts as well; without one nothing is
known of its program but that there is a function to write to. The steps of the compiler that read
tokens or write code lead from one such pass to the next.
-/

namespace DeskCalc

/-- What is open, and which function receives code. -/
structure Outline where
  blocks : BlockStack
  exits : List Exit
  continues : List Nat
  target : Nat
  quitting : Bool

/-- The outline of a pass. -/
def Pass.outline (p : Pass) : Outline := ⟨p.blocks, p.exits, p.continues, p.target, p.quitting⟩

/-- The pass is in order, and the code of the function `f` has left `stack`. -/
structure Pass.Stands (B : Prop) (p : Pass) (f : Function) (stack : List Entry) : Prop where
  inOrder : p.InOrder
  writing : Writing B p.toSession f stack
  short : B → p.upcoming.length ≤ wordBound

/-- Where a run of the compiler comes from: whether its texts are short, the drafts it may have begun
with, and the names of the functions that may begin in it. -/
structure Trail where
  limited : Prop
  starts : Draft → Prop
  anew : String → Prop

/-- Nothing is asked of where the run comes from. -/
def Trail.free (limited : Prop) : Trail := ⟨limited, fun _ => True, fun _ => True⟩

instance : Coe Prop Trail := ⟨Trail.free⟩

/-- The draft comes out of one that the run may have begun with. -/
def Trail.Reaches (B : Trail) (named : Nat) (d : Draft) : Prop :=
  ∃ d₀, B.starts d₀ ∧ d₀.Edits B.anew named d

theorem Trail.reaches_free (limited : Prop) (d : Draft) : (free limited).Reaches 0 d :=
  ⟨d, trivial, .refl⟩

theorem Trail.Reaches.imp {B : Trail} {n m : Nat} {d e : Draft} (h : B.Reaches n d)
    (he : ∀ d₀, Draft.Edits d₀ B.anew n d → Draft.Edits d₀ B.anew m e) : B.Reaches m e := by
  obtain ⟨d₀, hd₀, hd⟩ := h
  exact ⟨d₀, hd₀, he d₀ hd⟩

/-- What is still to be done: the first `named` labels may have jumps before they are made, and in
the header of a function it does not count as defined yet. -/
structure Dues where
  named : Nat := 0
  header : Bool := false

/-- The pass stands, and its draft comes from where the run began. -/
structure Pass.Drafts (B : Trail) (p : Pass) (f : Function) (stack : List Entry)
    (due : Dues := {}) : Prop extends Pass.Stands B.limited p f stack where
  reaches : B.Reaches due.named p.draft
  declared : due.header = false → p.target ≠ Program.mainId → f.defined = true

/-- The source is refused, and the session can be taken back. -/
def Compile.Fails (B : Trail) (e : Stop) (p : Pass) : Prop :=
  e.IsRefusal ∧ Recoverable B.limited p.toSession ∧ ∃ n, B.Reaches n p.draft

variable {B : Trail} {due : Dues}

namespace Pass

variable {p q : Pass} {f g : Function} {stack stack' : List Entry} {u : List Token}
  {is : List Command}

theorem Progress.outline_eq (h : p.Progress u is q) : q.outline = p.outline := by
  simp only [outline, h.blocks, h.exits, h.continues, h.target, h.quitting]

theorem Stands.progress {B : Prop} (h : p.Stands B f stack) (hq : p.Progress u is q)
    (ho : q.operators = p.operators) (hrun : B → execute is stack = some stack') :
    ∃ c, q.Stands B { f with code := c } stack' := by
  obtain ⟨c, hc⟩ := h.writing.progress hq ho hrun
  refine ⟨c, hq.inOrder h.inOrder, hc, fun hB => ?_⟩
  have := hq.length_eq
  have := h.short hB
  omega

/-- The function that receives code is as it was where none is written. -/
theorem Progress.function_eq (h : p.Progress u [] q) (hf : p.program.function? p.target = some f) :
    q.program.function? q.target = some f := by
  obtain ⟨g, d, hg, hd, hq⟩ := h.program.written
  cases hf.symm.trans hg
  have hfd : f.code = d := by
    generalize hjs : ([] : List Command) = js at hd
    cases hd with
    | nil => rfl
    | snoc => simp at hjs
  rw [h.target, hq, ← hfd]

/-- Reading tokens alone. -/
theorem Stands.reads {B : Prop} (h : p.Stands B f stack) (hq : p.Progress u [] q)
    (ho : q.operators = p.operators) : q.Stands B f stack := by
  obtain ⟨c, hc⟩ := h.progress hq ho (fun _ => rfl)
  have heq := Option.some.inj ((hq.function_eq h.writing.function).symm.trans hc.writing.function)
  rwa [← heq] at hc

/-- The tokens stay in order when only the session changes. -/
theorem InOrder.congr (h : p.InOrder) (htoken : q.token = p.token)
    (hupcoming : q.upcoming = p.upcoming) (hg : q.program.function? q.target = some g) :
    q.InOrder where
  ended := by
    rw [Pass.rest, htoken, hupcoming]
    exact h.ended
  flawed := hupcoming ▸ h.flawed
  named := by
    rw [Pass.rest, htoken, hupcoming]
    exact h.named
  function := ⟨g, hg⟩

theorem Stands.congr {B : Prop} (h : p.Stands B f stack) (htoken : q.token = p.token)
    (hupcoming : q.upcoming = p.upcoming) (hq : Writing B q.toSession g stack') :
    q.Stands B g stack' where
  inOrder := h.inOrder.congr htoken hupcoming hq.function
  writing := hq
  short := hupcoming ▸ h.short

theorem Stands.draft_function {B : Prop} (h : p.Stands B f stack) : p.draft.function? = some f :=
  h.writing.function

theorem Drafts.draft_declared (h : p.Drafts B f stack) : p.draft.Declared :=
  fun hmain => ⟨f, h.writing.function, h.declared rfl hmain⟩

/-- Where nothing is asked of where the run comes from. -/
theorem Stands.drafts {B : Prop} (h : p.Stands B f stack) (hd : p.draft.Declared) :
    p.Drafts B f stack := by
  refine ⟨h, Trail.reaches_free B _, fun _ hmain => ?_⟩
  obtain ⟨g, hg, hdefined⟩ := hd hmain
  cases h.draft_function.symm.trans hg
  exact hdefined

section

variable (h : p.Drafts B f stack due)
include h

/-- Other labels may be named. -/
theorem Drafts.name {m : Nat} (hm : due.named ≤ max m f.labels.size) :
    p.Drafts B f stack { due with named := m } :=
  { h with reaches := h.reaches.imp fun _ hd => hd.name h.writing.function hm }

theorem Drafts.progress (hq : p.Progress u is q) (ho : q.operators = p.operators)
    (hrun : B.limited → execute is stack = some stack')
    (hl : ∀ c ∈ is, c.1.isJump = true → ∀ l ∈ c.2, p.draft.Names due.named l) :
    ∃ c, q.Drafts B { f with code := c } stack' due := by
  obtain ⟨c, hc⟩ := h.toStands.progress hq ho hrun
  exact ⟨c, hc, h.reaches.imp fun _ hd => hq.edits_of hd hl, fun hdue => hq.target ▸ h.declared hdue⟩

/-- Reading tokens alone. -/
theorem Drafts.reads (hq : p.Progress u [] q) (ho : q.operators = p.operators) :
    q.Drafts B f stack due where
  toStands := h.toStands.reads hq ho
  reaches := h.reaches.imp fun _ hd => hq.edits_of hd (by simp)
  declared hdue := hq.target ▸ h.declared hdue

/-- Something changes that the draft does not show. -/
theorem Drafts.congr (htoken : q.token = p.token) (hupcoming : q.upcoming = p.upcoming)
    (hq : Writing B.limited q.toSession f stack) (hdraft : q.draft = p.draft) :
    q.Drafts B f stack due where
  toStands := h.toStands.congr htoken hupcoming hq
  reaches := hdraft ▸ h.reaches
  declared hdue := by
    rw [show q.target = p.target from congrArg Draft.target hdraft]
    exact h.declared hdue

theorem Drafts.fails (d : Diagnostic) : Compile.Fails B (.refused d) p :=
  ⟨⟨d, rfl⟩, h.writing.recoverable, _, h.reaches⟩

theorem Drafts.fails_of_refused {e : Stop} (hq : p.Refused e q) : Compile.Fails B e q := by
  obtain ⟨d, hd, hedits⟩ := h.reaches
  obtain ⟨n, hn⟩ := hq.edits_of hedits
  obtain ⟨he, u, is, hu⟩ := hq
  exact ⟨he, h.writing.recoverable.progress hu, n, d, hd, hn⟩

end

end Pass

/-! ## What was read -/

namespace Pass

/-- From `s` to `q` the tokens `u` were read. -/
structure From (q s : Pass) (u : List Token) : Prop where
  rest : s.rest = u ++ q.rest
  previous : q.previous = (u.getLast?.map (·.kind)).getD s.previous
  strictness : q.strictness = s.strictness
  autoAllowed : q.autoAllowed = s.autoAllowed
  grows : s.program.Grows q.program

variable {p q r s : Pass} {u v : List Token} {is : List Command} {o : Outline} {f g : Function}
  {stack stack' : List Entry}

theorem From.refl (p : Pass) : p.From p [] := ⟨rfl, rfl, rfl, rfl, .refl _⟩

theorem From.trans (h : q.From s u) (h' : r.From q v) : r.From s (u ++ v) where
  rest := by rw [h.rest, h'.rest, List.append_assoc]
  previous := by
    rw [h'.previous, h.previous, List.getLast?_append]
    cases v.getLast? <;> rfl
  strictness := h'.strictness.trans h.strictness
  autoAllowed := h'.autoAllowed.trans h.autoAllowed
  grows := h.grows.trans h'.grows

theorem Progress.toFrom (h : p.Progress u is q) : q.From p u :=
  ⟨h.rest, h.previous, h.strictness, h.autoAllowed, h.program.grows⟩

theorem From.length_eq (h : q.From s u) : u.length + q.upcoming.length = s.upcoming.length := by
  have := congrArg List.length h.rest
  simp only [Pass.rest, List.length_cons, List.length_append, List.length_map] at this
  omega

/-- Whatever was read in between, two passes that have read the same are at the same token. -/
theorem From.token_eq (h : p.From s u) (h' : q.From s u) : q.token = p.token :=
  (List.cons.inj (List.append_cancel_left (h'.rest.symm.trans h.rest))).1

/-- Reading on. -/
theorem From.length_lt (h : p.From s u) (h' : q.From s (u ++ v)) (hv : v ≠ []) :
    q.upcoming.length < p.upcoming.length := by
  have := h.length_eq
  have := h'.length_eq
  have := List.length_pos_iff.2 hv
  rw [List.length_append] at *
  omega

theorem From.head?_eq (h : p.From s u) (h' : q.From s (u ++ v)) (hv : v ≠ []) :
    v.head? = some p.token := by
  have hrest := h.rest.symm.trans h'.rest
  rw [List.append_assoc, List.append_cancel_left_eq] at hrest
  cases v with
  | nil => exact absurd rfl hv
  | cons t v => exact congrArg some (List.cons.inj hrest).1.symm

/-- The token before the current one was read last. -/
theorem From.getLast?_eq (h : q.From s (u ++ v)) (hv : v ≠ []) :
    v.getLast?.map (·.kind) = some q.previous := by
  rw [h.previous, List.getLast?_append, List.getLast?_eq_some_getLast hv]
  rfl

theorem From.previous_eq {t : Token} (h : q.From s (u ++ [t])) : q.previous = t.kind :=
  Option.some.inj (h.getLast?_eq (List.cons_ne_nil t [])).symm

/-- Since `s` the tokens `u` were read, and `o` is the outline. -/
structure Midway (B : Option Trail) (p s : Pass) (u : List Token) (o : Outline) (f : Function)
    (stack : List Entry) (due : Dues := {}) : Prop extends p.From s u where
  inOrder : p.InOrder
  function : p.program.function? p.target = some f
  outline : p.outline = o
  drafts : ∀ b ∈ B, p.Drafts b f stack due

end Pass

/-- Where a trail is given, the source is refused and the session can be taken back. -/
def Compile.Declines (B : Option Trail) (e : Stop) (p : Pass) : Prop := ∀ b ∈ B, Compile.Fails b e p

namespace Pass.Midway

variable {B : Option Trail} {p q s : Pass} {u v : List Token} {is : List Command} {o o' : Outline}
  {f g : Function} {stack stack' : List Entry} {due due' : Dues}

theorem start (hp : p.InOrder) (hf : p.program.function? p.target = some f) :
    p.Midway none p [] p.outline f stack due := ⟨.refl p, hp, hf, rfl, fun _ hb => by cases hb⟩

section

variable (h : p.Midway B s u o f stack due)
include h

theorem declines (d : Diagnostic) : Compile.Declines B (.refused d) p :=
  fun b hb => (h.drafts b hb).fails d

theorem declines_of_refused {e : Stop} (hq : p.Refused e q) : Compile.Declines B e q :=
  fun b hb => (h.drafts b hb).fails_of_refused hq

/-- Counted from here on. -/
theorem here : p.Midway B p [] o f stack due := { h with toFrom := .refl p }

theorem after (hq : q.Midway B p v o' g stack' due') : q.Midway B s (u ++ v) o' g stack' due' :=
  { hq with toFrom := h.toFrom.trans hq.toFrom }

/-- Other labels may be named. -/
theorem name {m : Nat} (hm : due.named ≤ max m f.labels.size) :
    p.Midway B s u o f stack { due with named := m } :=
  { h with drafts := fun b hb => (h.drafts b hb).name hm }

theorem progress (hq : p.Progress v is q) (ho : q.operators = p.operators)
    (hrun : p.upcoming.length ≤ wordBound → execute is stack = some stack')
    (hl : ∀ c ∈ is, c.1.isJump = true → ∀ l ∈ c.2, p.draft.Names due.named l) :
    ∃ c, q.Midway B s (u ++ v) o { f with code := c } stack' due := by
  obtain ⟨g, c, hg, -, hf⟩ := hq.program.written
  cases h.function.symm.trans hg
  rw [← hq.target] at hf
  refine ⟨c, h.toFrom.trans hq.toFrom, hq.inOrder h.inOrder, hf, hq.outline_eq.trans h.outline,
    fun b hb => ?_⟩
  have hp := h.drafts b hb
  obtain ⟨d, hd⟩ := hp.progress hq ho (fun hB => hrun (hp.short hB)) hl
  cases hd.writing.function.symm.trans hf
  exact hd

/-- Reading tokens alone. -/
theorem reads (hq : p.Progress v [] q) (ho : q.operators = p.operators) :
    q.Midway B s (u ++ v) o f stack due where
  toFrom := h.toFrom.trans hq.toFrom
  inOrder := hq.inOrder h.inOrder
  function := hq.function_eq h.function
  outline := hq.outline_eq.trans h.outline
  drafts b hb := (h.drafts b hb).reads hq ho

/-- Nothing is read. -/
theorem congr (hq : q.From p []) (hupcoming : q.upcoming = p.upcoming)
    (hg : q.program.function? q.target = some g)
    (hdrafts : ∀ b, p.Drafts b f stack due → q.Drafts b g stack' due') :
    q.Midway B s u q.outline g stack' due' where
  toFrom := by simpa using h.toFrom.trans hq
  inOrder := h.inOrder.congr ((From.refl p).token_eq hq) hupcoming hg
  function := hg
  outline := rfl
  drafts b hb := hdrafts b (h.drafts b hb)

/-- Another function is put in the place of the one that receives code. -/
theorem put {g : Function} (hname : g.name = f.name) (hq : q.From p [])
    (hupcoming : q.upcoming = p.upcoming) (htarget : q.target = p.target)
    (hprogram : q.program = p.program.modifyFunction (fun _ => g) p.target)
    (hdrafts : ∀ b, p.Drafts b f stack due → q.Drafts b g stack' due') :
    q.Midway B s u q.outline g stack' due' := by
  refine h.congr hq hupcoming ?_ hdrafts
  rw [hprogram, htarget]
  exact Program.function?_put h.function hname

end

end Pass.Midway

namespace Compile

variable {B : Option Trail} {p s : Pass} {u : List Token} {o : Outline} {f g : Function}
  {stack stack' : List Entry} {Q : Unit → Pass → Prop} {E : Stop → Pass → Prop} {ctx : Context}

/-! ## Tokens -/

section

variable (h : p.Midway B s u o f stack due)
include h

theorem advance_holds (heof : p.token.kind ≠ .eof)
    (hQ : ∀ q, q.Midway B s (u ++ [p.token]) o f stack due → Q () q) :
    Ensures advance p Q (Declines B) := by
  refine (ensures_advance h.inOrder heof).mono ?_ ?_
  · rintro - q ⟨hq, ho, -⟩
    exact hQ q (h.reads hq ho)
  · rintro e q ⟨he, hq, -⟩
    exact h.declines_of_refused ⟨he, _, _, hq⟩

/-- Moving on from a token of a certain kind. -/
theorem advance_holds_kind {k : Token.Kind} (hk : p.token.kind = k) (heof : k ≠ .eof)
    (hQ : ∀ t q, t.kind = k → q.Midway B s (u ++ [t]) o f stack due → Q () q) :
    Ensures advance p Q (Declines B) :=
  advance_holds h (hk ▸ heof) fun q hq => hQ p.token q hk hq

theorem unexpected_holds {α : Type} {Q : α → Pass → Prop} : Ensures unexpected p Q (Declines B) :=
  ensures_unexpected h.declines

theorem expect_holds {k : Token.Kind} (hk : k ≠ .eof)
    (hQ : ∀ t q, t.kind = k → q.Midway B s (u ++ [t]) o f stack due → Q () q) :
    Ensures (expect k) p Q (Declines B) := by
  rw [ensures_expect]
  split
  · next hp => exact advance_holds_kind h hp hk hQ
  · exact unexpected_holds h

theorem skipWhile_holds {kinds : Token.Kind → Bool} (heof : kinds .eof = false)
    (hQ : ∀ v q, (∀ t ∈ v, kinds t.kind = true) → kinds q.token.kind = false →
      q.Midway B s (u ++ v) o f stack due → Q () q) : Ensures (skipWhile kinds) p Q (Declines B) := by
  refine (ensures_skipWhile h.inOrder heof).mono ?_ fun _ _ he => h.declines_of_refused he
  rintro - q ⟨v, hv, ho, hall, hk⟩
  exact hQ v q hall hk (h.reads hv ho)

/-- A report refuses the source where POSIX is enforced. -/
theorem report_holds {v : Violation} {span : Span}
    (hQ : s.strictness ≠ .strict → ∀ q, q.Midway B s u o f stack due → Q () q) :
    Ensures (report v span) p Q (Declines B) := by
  by_cases hmode : p.strictness = .strict
  · simp only [report, ensures_bind, ensures_get, hmode, ensures_refuse]
    exact h.declines _
  · refine ensures_report h.inOrder (fun q hq ho _ => ?_) fun hstrict => absurd hstrict hmode
    have hmid := h.reads hq ho
    rw [List.append_nil] at hmid
    exact hQ (h.strictness ▸ hmode) q hmid

/-! ## Code -/

theorem emitWith_holds {op : Opcode} {operands : List Nat} (hop : operands.length = op.operandCount)
    (hrun : op.step (operands.map (· % wordBound)) stack = some stack')
    (hl : op.isJump = true → ∀ l ∈ operands, p.draft.Names due.named l)
    (hQ : ∀ q g, g.labels.size = f.labels.size → q.Midway B s u o g stack' due → Q () q) :
    Ensures (emitWith op operands) p Q E := by
  refine ensures_emitWith h.inOrder hop fun q hq ho _ => ?_
  have hone : execute [(op, operands)] stack = some stack' := by simp [execute, hrun]
  obtain ⟨c, hc⟩ := h.progress hq ho (fun _ => hone) fun i hi hjump => by
    cases List.mem_singleton.1 hi
    exact hl hjump
  rw [List.append_nil] at hc
  exact hQ q { f with code := c } rfl hc

theorem emit_holds {op : Opcode} (hop : op.operandCount = 0) (hrun : op.step [] stack = some stack')
    (hQ : ∀ q g, g.labels.size = f.labels.size → q.Midway B s u o g stack' due → Q () q) :
    Ensures (emit op) p Q E :=
  emitWith_holds h hop.symm hrun (fun _ => by simp) hQ

end

/-- The function that receives code has the label that a jump names, or it may be named. -/
theorem names_of_lt (hf : p.program.function? p.target = some f) {op : Opcode} {l : Nat}
    (hl : l < due.named ∨ l < f.labels.size) :
    op.isJump = true → ∀ k ∈ [l], p.draft.Names due.named k :=
  fun _ _ hk => .inl ⟨f, hf, List.mem_singleton.1 hk ▸ lt_max_iff.2 hl⟩

/-! ## Expressions -/

/-- What the code of an expression leaves, in a text that is not too long. -/
theorem runs_of_compiles {q : Pass} {e : Expr} (he : e.wellFormed ctx.wholeArray = true)
    (hu : wordsOf u = e.words) (hq : p.Compiles u (e.settled ctx) q)
    (hkept : ctx.needsValue = true → ctx.printed = false)
    (hdropped : ctx.needsValue = false → ctx.wholeArray = false) :
    ∃ is, p.Progress u is q ∧ (∀ c ∈ is, c.1.isJump = true → c.2 = []) ∧
      (p.upcoming.length ≤ wordBound →
        ∀ stack, execute is stack = some (e.left ctx ++ stack)) := by
  obtain ⟨⟨is, his, hdenotes⟩, -⟩ := hq
  refine ⟨is, his, Program.operands_of_denotes hdenotes, fun hshort stack => ?_⟩
  have hlength := his.length_eq
  have hwords : e.words.length ≤ u.length := by
    rw [← hu, wordsOf, List.length_map]
    exact List.length_filter_le _ _
  rw [execute_of_denotes hdenotes (Expr.fits_settled (by omega) ctx)]
  exact Expr.execute_settled he hkept hdropped stack

/-- What an expression in this context leaves on the stack. -/
def Leaves (ctx : Context) (xs : List Entry) : Prop :=
  if ctx.needsValue then ∃ x : Entry, x.isScalar = true ∧ xs = [x] else xs = []

section

variable (h : p.Midway B s u o f stack due) (harray : ctx.wholeArray = false)
  (hkept : ctx.needsValue = true → ctx.printed = false)
include h harray hkept

/-- An expression was read and compiled. -/
theorem midway_of_compiles {q : Pass} {e : Expr} {v : List Token}
    (he : e.wellFormed ctx.wholeArray = true) (hv : wordsOf v = e.words)
    (hq : p.Compiles v (e.settled ctx) q) : ∃ g xs, Leaves ctx xs ∧ g.labels.size = f.labels.size ∧
      q.Midway B s (u ++ v) o g (xs ++ stack) due := by
  obtain ⟨is, his, hplain, hrun⟩ := runs_of_compiles he hv hq hkept fun _ => harray
  obtain ⟨c, hc⟩ := h.progress his hq.operators (fun hB => hrun hB stack) fun c hc hjump => by
    simp [hplain c hc hjump]
  rw [harray] at he
  refine ⟨{ f with code := c }, e.left ctx, ?_, rfl, hc⟩
  unfold Leaves Expr.left
  split
  · exact ⟨e.entry, Expr.isScalar_entry e he, rfl⟩
  · rfl

/-- An expression that may be `()`. -/
theorem expressionOrEmpty_holds {Q : Outcome → Pass → Prop} {ends : Ends}
    (hQ : ∀ v e q g xs, Spells s.strictness ctx.condition v e → Leaves ctx xs →
      g.labels.size = f.labels.size → q.Midway B s (u ++ v) o g (xs ++ stack) due → Q .value q)
    (hempty : ∀ n v q,
      kindsOf v = List.replicate n (.symbol .leftParen) ++ [.symbol .rightParen] →
      (n = 0 → p.previous = .symbol .leftParen) → q.Midway B s (u ++ v) o f stack due →
      Q .empty q) : Ensures (expressionOrEmpty ctx ends) p Q (Declines B) := by
  refine (expressionOrEmpty_sound h.inOrder).mono ?_ fun _ _ he => h.declines_of_refused he
  rintro (_ | _) q hq
  · obtain ⟨e, v, ⟨he, ha⟩, hv, hq⟩ := hq
    obtain ⟨g, xs, hxs, hg, hmid⟩ := midway_of_compiles h harray hkept he hv hq
    exact hQ v e q g xs ⟨congrArg _ hv, harray ▸ he, h.strictness ▸ ha⟩ hxs hg hmid
  · obtain ⟨v, n, hv, hn, ⟨is, his, hdenotes⟩, ho⟩ := hq
    cases hdenotes
    refine hempty n v q ?_ hn (h.reads his ho)
    rw [kindsOf, hv, List.map_append, List.map_replicate]
    rfl

theorem expression_holds {ends : Ends}
    (hQ : ∀ v e q g xs, Spells s.strictness ctx.condition v e → Leaves ctx xs →
      g.labels.size = f.labels.size → q.Midway B s (u ++ v) o g (xs ++ stack) due → Q () q) :
    Ensures (expression ctx ends) p Q (Declines B) := by
  rw [expression, ensures_bind]
  refine expressionOrEmpty_holds h harray hkept hQ fun _ _ q _ _ hq => ?_
  rw [requireValue, ensures_refuseHere]
  exact hq.declines _

end

/-- A string leaves a value. -/
theorem string_holds (h : p.Midway B s u o f stack due) (hk : p.token.kind = .string)
    (hQ : ∀ v q g, kindsOf v = [.string] → g.labels.size = f.labels.size →
      q.Midway B s (u ++ v) o g (.value :: stack) due → Q () q) :
    Ensures string p Q (Declines B) := by
  refine (string_sound (a := false) h.inOrder hk).mono ?_ fun _ _ he => h.declines_of_refused he
  rintro - q ⟨⟨he, -, v, hv, hq⟩, -⟩
  have hsettled : Expr.settled { needsValue := true } (.string p.token.text) =
      Expr.postorder (.string p.token.text) := by simp [Expr.settled]
  rw [← hsettled] at hq
  obtain ⟨is, his, hplain, hrun⟩ := runs_of_compiles he hv hq (fun _ => rfl) (by simp)
  obtain ⟨c, hc⟩ := h.progress his hq.operators (fun hB => hrun hB stack) fun c hc hjump => by
    simp [hplain c hc hjump]
  exact hQ v q { f with code := c } (congrArg _ hv) rfl hc

/-! ## Labels and blocks -/

section

variable (hf : p.program.function? p.target = some f)
include hf

theorem ensures_function {Q : Function → Pass → Prop} : Ensures function p Q E ↔ Q f p := by
  simp [function, hf]

theorem ensures_nextLabel {Q : Nat → Pass → Prop} : Ensures nextLabel p Q E ↔ Q f.labels.size p := by
  simp only [nextLabel, ensures_bind, ensures_function hf, ensures_pure]

theorem ensures_makeLabel {Q : Nat → Pass → Prop} (l : Label) :
    Ensures (makeLabel l) p Q E ↔ Q f.labels.size { p with
      program := p.program.modifyFunction (fun _ => { f with labels := f.labels.push l })
        p.target } := by
  simp only [makeLabel, putFunction, ensures_bind, ensures_function hf, ensures_modify,
    ensures_pure]

end

/-- A label here, where the stack is empty. -/
theorem labelHere_holds {Q : Nat → Pass → Prop} (h : p.Midway B s u o f [] due)
    (hQ : ∀ q g, g.labels.size = f.labels.size + 1 → q.Midway B s u o g [] due →
      Q f.labels.size q) :
    Ensures labelHere p Q E := by
  cases h.outline
  simp only [labelHere, ensures_bind, ensures_function h.function, ensures_makeLabel h.function]
  refine hQ _ { f with labels := f.labels.push (.known f.code.size) } (LabelTable.size_push _ _) ?_
  refine h.put rfl ⟨rfl, rfl, rfl, rfl, .put⟩ rfl rfl rfl fun b hp => ?_
  exact ⟨hp.toStands.congr rfl rfl hp.writing.makeLabel,
    hp.reaches.imp fun _ hd => hd.label hp.writing.function, hp.declared⟩

/-- A label here that `continue` jumps to. -/
theorem continueHere_holds {Q : Nat → Pass → Prop} (h : p.Midway B s u o f [] due)
    (hQ : ∀ q g, g.labels.size = f.labels.size + 1 →
      q.Midway B s u { o with continues := f.labels.size :: o.continues } g [] due →
      Q f.labels.size q) :
    Ensures continueHere p Q E := by
  cases h.outline
  have hsize := f.labels.size_push (.known f.code.size)
  simp only [continueHere, labelHere, ensures_bind, ensures_function h.function,
    ensures_makeLabel h.function, ensures_modify, ensures_pure]
  refine hQ _ { f with labels := f.labels.push (.known f.code.size) } hsize ?_
  refine h.put rfl ⟨rfl, rfl, rfl, rfl, .put⟩ rfl rfl rfl fun b hp => ?_
  refine ⟨hp.toStands.congr rfl rfl { hp.writing.makeLabel with }, hp.reaches.imp fun _ hd => ?_,
    hp.declared⟩
  exact (hd.label hp.draft_function).pushContinue (Draft.function?_put hp.draft_function rfl)
    (hsize ▸ Nat.lt_succ_self _)

/-- The pending label of a block that opens. -/
theorem openExit_holds {Q : Nat → Pass → Prop} (h : p.Midway B s u o f stack due) {isLoop : Bool}
    (hQ : ∀ q g, g.labels.size = f.labels.size + 1 →
      q.Midway B s u { o with exits := ⟨f.labels.size, isLoop⟩ :: o.exits } g stack due →
      Q f.labels.size q) :
    Ensures (openExit isLoop) p Q E := by
  cases h.outline
  simp only [openExit, ensures_bind, ensures_makeLabel h.function, ensures_modify, ensures_pure]
  refine hQ _ { f with labels := f.labels.push .pending } (LabelTable.size_push _ _) ?_
  refine h.put rfl ⟨rfl, rfl, rfl, rfl, .put⟩ rfl rfl rfl fun b hp => ?_
  exact ⟨hp.toStands.congr rfl rfl (hp.writing.openExit isLoop),
    hp.reaches.imp fun _ hd => hd.openExit hp.writing.function isLoop, hp.declared⟩

theorem ensures_resolveExit (hf : p.program.function? p.target = some f) {x : Exit}
    {xs : List Exit} (hx : p.exits = x :: xs) {labels : LabelTable}
    (hlabels : f.labels.resolve x.label f.code.size = .ok labels) :
    Ensures resolveExit p Q E ↔ Q () { p with
      exits := xs
      program := p.program.modifyFunction (fun _ => { f with labels := labels }) p.target } := by
  simp only [resolveExit, ensures_bind, ensures_get, hx, ensures_set, function,
    hf, ensures_pure, hlabels, putFunction, ensures_modify]

/-- A block ends here. -/
theorem resolveExit_holds (h : p.Midway B s u o f [] due)
    (hQ : ∀ q g, g.labels.size = f.labels.size →
      q.Midway B s u { o with exits := o.exits.tail } g [] due → Q () q) :
    Ensures resolveExit p Q (Declines B) := by
  cases h.outline
  cases hx : p.exits with
  | nil =>
    have htail : { p.outline with exits := p.outline.exits.tail } = p.outline := by
      simp [Pass.outline, hx]
    simp only [resolveExit, ensures_bind, ensures_get, hx, ensures_pure]
    refine hQ p f rfl ?_
    rw [htail]
    exact h
  | cons x xs =>
    cases hlabels : f.labels.resolve x.label f.code.size with
    | error fault =>
      simp only [resolveExit, ensures_bind, ensures_get, hx, ensures_set, function, h.function,
        ensures_pure, hlabels, ensures_throw]
      intro b hb
      obtain ⟨labels, hok, -⟩ := (h.drafts b hb).writing.resolveExit hx
      cases hlabels.symm.trans hok
    | ok labels =>
      rw [ensures_resolveExit h.function hx hlabels]
      have htail : p.outline.exits.tail = xs := by simp [Pass.outline, hx]
      rw [htail] at hQ
      refine hQ _ { f with labels := labels } (LabelTable.size_of_resolve hlabels) ?_
      refine h.put rfl ⟨rfl, rfl, rfl, rfl, .put⟩ rfl rfl rfl fun b hp => ?_
      obtain ⟨labels', hok, -, hwriting⟩ := hp.writing.resolveExit hx
      cases hlabels.symm.trans hok
      exact ⟨hp.toStands.congr rfl rfl hwriting,
        hp.reaches.imp fun _ hd => hd.resolveExit hp.writing.function hx hlabels, hp.declared⟩

/-- Only the open blocks change. -/
theorem modifyBlocks_holds (h : p.Midway B s u o f stack due) {change : BlockStack → BlockStack}
    (hQ : ∀ q, q.Midway B s u { o with blocks := change o.blocks } f stack due → Q () q) :
    Ensures (modifyBlocks change) p Q E := by
  cases h.outline
  simp only [modifyBlocks, ensures_modify]
  refine hQ _ (h.congr ⟨rfl, rfl, rfl, rfl, .refl _⟩ rfl h.function fun b hp => ?_)
  exact hp.congr rfl rfl { hp.writing with } rfl

end Compile

end DeskCalc
