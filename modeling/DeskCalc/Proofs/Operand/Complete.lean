import DeskCalc.Proofs.Compiles

/-!
# Operands of the grammar are compiled

Where the words ahead are those of an operand of the grammar, the operand is compiled and its code
is written (`operand_complete`); only a full table can stand in the way. In a name that ends in
`_complete` a failure is a shortage, and the words ahead are known.

How subscripts and arguments are compiled is a parameter, of which `CompleteSub n` is known as long
as fewer than `n` tokens are left.
-/

namespace DeskCalc

/-- Right behind a token of this kind a step `++` or `--` cannot begin. -/
def Token.Kind.blocksStep (k : Token.Kind) : Bool :=
  k == .symbol .rightParen || k == .symbol .increment || k == .symbol .decrement

/-- If a step comes next, it can begin here. -/
def Pass.Unblocked (p : Pass) : Prop :=
  ∀ up, p.token.kind = .symbol (Expr.stepSymbol up) → p.previous.blocksStep = false

theorem Pass.Unblocked.of_previous {p : Pass} (h : p.previous.blocksStep = false) : p.Unblocked :=
  fun _ _ => h

/-- There is a next word, and it is no error. -/
def isClear : List Word → Bool
  | [] => false
  | w :: _ => w.1 != .error

@[simp] theorem isClear_symbol (s : Symbol) (ws : List Word) : isClear (s.word :: ws) = true := rfl

@[simp] theorem isClear_words (e : Expr) (ws : List Word) : isClear (e.words ++ ws) = true := by
  have hall := e.all_words_isInner
  have hne := e.words_ne_nil
  cases h : e.words with
  | nil => exact absurd h hne
  | cons w ws' =>
    simp only [h, List.all_cons, Expr.isInner, Bool.and_eq_true] at hall
    exact hall.1.1.2

@[simp] theorem isClear_wordsOfAll (es : List Expr) (s : Symbol) (ws : List Word) :
    isClear (Expr.wordsOfAll es ++ s.word :: ws) = true := by
  rcases es with _ | ⟨e, _ | ⟨e', es⟩⟩
  · rfl
  · simp [Expr.wordsOfAll]
  · simp [Expr.wordsOfAll]

namespace Pass

/-- The words from the current token on. -/
def words (p : Pass) : List Word := p.rest.map Token.word

theorem length_words (p : Pass) : p.words.length = p.upcoming.length + 1 := by
  simp [words, rest]

variable {p q : Pass} {u : List Token} {code : List Symbolic} {w : Word} {ws : List Word}

theorem kind_of_words (h : p.words = w :: ws) : p.token.kind = w.1 := by
  have : p.token.word = w := (List.cons.inj h).1
  rw [← this, Token.word_fst]

theorem text_of_words {k : Token.Kind} {text : String} (h : p.words = (k, text) :: ws)
    (hk : k = .number ∨ k = .string ∨ k = .name) : p.token.text = text := by
  have hw : p.token.word = (k, text) := (List.cons.inj h).1
  have hkind : p.token.kind = k := kind_of_words h
  rcases hk with rfl | rfl | rfl <;> simpa [Token.word, hkind] using hw

theorem words_eq_of_rest_eq (h : q.rest = p.rest) : q.words = p.words := by
  rw [words, words, h]

theorem Compiles.previous_eq {t : Token} (h : p.Compiles (u ++ [t]) code q) :
    q.previous = t.kind := by
  obtain ⟨is, his, -⟩ := h.progress
  simpa using his.previous

/-- On the way from `p₀` the tokens `u` were read and `code` was written, and `ws` are ahead. -/
structure Faces (p₀ : Pass) (u : List Token) (code : List Symbolic) (ws : List Word) (p : Pass) :
    Prop where
  inOrder : p₀.InOrder
  compiles : p₀.Compiles u code p
  words : p.words = ws

theorem Faces.start (hp : p.InOrder) (hw : p.words = ws) : p.Faces [] [] ws p := ⟨hp, .refl hp, hw⟩

theorem Faces.kind (h : p.Faces u code (w :: ws) q) : q.token.kind = w.1 := kind_of_words h.words

end Pass

namespace Compile

variable {α : Type} {p₀ p : Pass} {u : List Token} {code : List Symbolic} {w w' : Word}
  {ws : List Word} {sub : Sub} {ctx : Context} {n : Nat} {e : Expr} {name : String} {calls : Bool}
  {Q : Unit → Pass → Prop} {t : Token} {args : List Expr}

/-- The only failure is a full table. -/
abbrev OnlyShort : Stop → Pass → Prop := fun e _ => e.IsShortage

theorem advance_complete (h : p₀.Faces u code (w :: ws) p) (heof : w.1 ≠ .eof)
    (hclear : isClear ws = true)
    (hQ : ∀ q, p₀.Faces (u ++ [p.token]) code ws q → q.program = p.program → Q () q) :
    Ensures advance p Q OnlyShort := by
  obtain ⟨hp₀, h, hw⟩ := h
  have hkind := Pass.kind_of_words hw
  have hwords {q : Pass} (hq : p.Progress [p.token] [] q) : q.words = ws := by
    rw [Pass.words, hq.rest] at hw
    exact (List.cons.inj hw).2
  refine (ensures_advance (h.inOrder hp₀) (hkind ▸ heof)).mono ?_ ?_
  · rintro - q ⟨hq, ho, hprogram⟩
    have : p.Compiles [p.token] [] q := ⟨⟨[], hq, .nil⟩, ho⟩
    exact hQ q ⟨hp₀, by simpa using h.trans this, hwords hq⟩ hprogram
  · rintro e q ⟨-, hq, hk⟩
    rw [← hwords hq] at hclear
    simp [Pass.words, Pass.rest, isClear, hk] at hclear

theorem expect_complete {s : Symbol} (h : p₀.Faces u code (s.word :: ws) p)
    (hclear : isClear ws = true)
    (hQ : ∀ q, p₀.Faces (u ++ [p.token]) code ws q → q.program = p.program → Q () q) :
    Ensures (expect (.symbol s)) p Q OnlyShort := by
  have hk : p.token.kind = .symbol s := h.kind
  rw [ensures_expect, if_pos hk]
  exact advance_complete h (by simp) hclear hQ

theorem emitWith_complete (h : p₀.Faces u code ws p) {op : Opcode} {operands : List Nat}
    (hop : operands.length = op.operandCount) {s : Symbolic}
    (hs : p.program.Denotes s (op, operands))
    (hQ : ∀ q, p₀.Faces u (code ++ [s]) ws q → Q () q) :
    Ensures (emitWith op operands) p Q OnlyShort :=
  emitWith_step h.inOrder h.compiles hop hs fun q hq hr =>
    hQ q ⟨h.inOrder, hq, (Pass.words_eq_of_rest_eq hr).trans h.words⟩

theorem emit_complete (h : p₀.Faces u code ws p) {op : Opcode} (hop : op.operandCount = 0)
    (hQ : ∀ q, p₀.Faces u (code ++ [.plain op]) ws q → Q () q) : Ensures (emit op) p Q OnlyShort :=
  emitWith_complete h hop.symm (s := .plain op) rfl hQ

theorem intern_complete {Q : Nat → Pass → Prop} (h : p₀.Faces u code ws p) (e : TableEntry)
    {span : Span} (hQ : ∀ i q, p₀.Faces u code ws q → e.At q.program i → Q i q) :
    Ensures (intern (e.enter span)) p Q OnlyShort :=
  intern_step h.inOrder h.compiles e (fun i q hq hr =>
    hQ i q ⟨h.inOrder, hq, (Pass.words_eq_of_rest_eq hr).trans h.words⟩) fun _ he => he

/-- Nested expressions of the grammar are compiled, while fewer than `n` tokens are left. -/
def CompleteSub (n : Nat) (sub : Sub) : Prop :=
  ∀ ctx ends p (e : Expr) w ws, Pass.InOrder p → p.strictness = .lenient →
    p.previous.blocksStep = false → p.upcoming.length < n → ctx.needsValue = true →
    ctx.printed = false → ctx.answer = false → ends ∈ [Ends.argument, Ends.subscript] →
    e.wellFormed ctx.wholeArray = true → p.words = e.words ++ w :: ws → w.1 ∈ ends →
    (e.isWhole = true → w.1 ∈ Ends.argument) →
    Ensures (sub ctx ends) p
      (fun _ q => (∃ v, p.Compiles v e.postorder q) ∧ q.words = w :: ws) OnlyShort

/-- What is nested in an expression that begins at `p` is compiled. -/
structure Nests (n : Nat) (sub : Sub) (p : Pass) : Prop where
  inOrder : p.InOrder
  lenient : p.strictness = .lenient
  short : p.upcoming.length ≤ n
  sub : CompleteSub n sub

/-- A nested expression, on the way from `p₀` and behind its first token. -/
theorem sub_complete (hn : Nests n sub p₀) (hanswer : ctx.answer = false)
    (h : p₀.Faces (u ++ [t]) code (e.words ++ w :: ws) p) (ht : t.kind.blocksStep = false)
    {array : Bool} {ends : Ends} (he : e.wellFormed array = true) (hend : w.1 ∈ ends)
    (hwhole : e.isWhole = true → w.1 ∈ Ends.argument)
    (hends : ends ∈ [Ends.argument, Ends.subscript])
    (hQ : ∀ v q, p.program.Grows q.program → p₀.Faces v (code ++ e.postorder) (w :: ws) q →
      Q () q) : Ensures (sub (ctx.inner array) ends) p Q OnlyShort := by
  obtain ⟨hp₀, h, hw⟩ := h
  have hlt : p.upcoming.length < n := by
    have hshort := hn.short
    have := h.length_eq
    simp only [List.length_append, List.length_singleton] at this
    omega
  refine (hn.sub (ctx.inner array) ends p e w ws (h.inOrder hp₀)
    (h.strictness_eq.trans hn.lenient) (h.previous_eq ▸ ht) hlt rfl rfl hanswer hends he hw hend
    hwhole).imp ?_
  rintro - q ⟨⟨v, hv⟩, hq⟩
  obtain ⟨is, his, -⟩ := hv.progress
  exact hQ _ q his.program.grows ⟨hp₀, h.trans hv, hq⟩

/-! ## Operands -/

/-- The operand `e` was read and compiled from `p` to `q`, where the words `ws` are ahead. -/
def Taken (p : Pass) (e : Expr) (ws : List Word) (q : Pass) : Prop :=
  ∃ u, p.Faces u e.postorder ws q

theorem number_complete (hp : p.InOrder) {text : String} (hw : p.words = (.number, text) :: ws)
    (hclear : isClear ws = true) :
    Ensures number p (fun _ q => Taken p (.number text) ws q) OnlyShort := by
  have h := Pass.Faces.start hp hw
  have htext : p.token.text = text := Pass.text_of_words hw (.inl rfl)
  have hmove (q : Pass) (hq : p.Faces [] (Expr.number text).postorder ((.number, text) :: ws) q) :
      Ensures advance q (fun _ r => Taken p (.number text) ws r) OnlyShort :=
    advance_complete hq (by simp) hclear fun r hr _ => ⟨_, hr⟩
  simp only [number, ensures_bind, ensures_get, ensures_ite, htext]
  simp only [Expr.postorder] at hmove
  split
  · next h0 => exact emit_complete h rfl fun q hq => hmove q (by simpa [h0] using hq)
  · next h0 =>
    split
    · next h1 => exact emit_complete h rfl fun q hq => hmove q (by simpa [h1] using hq)
    · next h1 =>
      refine intern_complete h (.constant _) fun i q hq hi => ?_
      refine emitWith_complete hq rfl (s := .number (digits text)) ⟨i, rfl, hi⟩ fun r hr => ?_
      exact hmove r (by simpa [h0, h1] using hr)

theorem string_complete (hp : p.InOrder) {text : String} (hw : p.words = (.string, text) :: ws)
    (hclear : isClear ws = true) :
    Ensures string p (fun _ q => Taken p (.string text) ws q) OnlyShort := by
  have htext : p.token.text = text := Pass.text_of_words hw (.inr (.inl rfl))
  have hcontents : p.token.contents = Token.contents ⟨.string, text, ⟨0, 0, 0⟩⟩ := by
    simp only [Token.contents, htext]
  simp only [string, ensures_bind, ensures_get, hcontents]
  refine intern_complete (.start hp hw) (.constant _) fun i q hq hi => ?_
  refine emitWith_complete hq rfl (s := .string _) ⟨i, rfl, hi⟩ fun r hr => ?_
  exact advance_complete hr (by simp) hclear fun s hs _ => ⟨_, hs⟩

theorem kind_ne_of_words (hw : p.words = e.words ++ ws) {s : Symbol}
    (hs : s = .rightParen ∨ s = .rightBracket) : p.token.kind ≠ .symbol s := by
  intro hk
  have hword : p.token.word = s.word := by
    simp [Token.word, hk, Symbol.word]
  apply e.head?_words_ne hs
  rw [← hword, ← List.head?_append_of_ne_nil _ e.words_ne_nil, ← hw]
  rfl

theorem callArguments_complete (hn : Nests n sub p₀) (hanswer : ctx.answer = false)
    (ht : t.kind.blocksStep = false) (hargs : Expr.allWellFormed args = true)
    (h : p₀.Faces (u ++ [t]) [] (Expr.wordsOfAll args ++ Symbol.word .rightParen :: ws) p) :
    Ensures (callArguments sub ctx) p
      (fun count q => count = args.length ∧
        ∃ v, p₀.Faces v (Expr.postorderOfAll args) (Symbol.word .rightParen :: ws) q)
      OnlyShort := by
  -- some arguments are done, and the words of the others are ahead
  refine ensures_perToken (fun s q => ∃ done todo v, args = done ++ todo ∧ s.1 = done.length ∧
    p₀.Faces v (Expr.postorderOfAll done)
      (Expr.wordsOfAll todo ++ Symbol.word .rightParen :: ws) q ∧
    (todo ≠ [] → ∃ x t, v = x ++ [t] ∧ t.kind.blocksStep = false) ∧ (s.2 = true → todo ≠ [])) ?_
    ⟨[], args, _, rfl, rfl, h, fun _ => ⟨u, t, rfl, ht⟩, by simp⟩
  rintro ⟨count, comma⟩ q ⟨done, todo, v, rfl, rfl, hq, hprev, hcomma⟩
  simp only [argumentStep, ensures_bind, ensures_isAt, ensures_ite, ensures_pure, beq_iff_eq]
  cases todo with
  | nil =>
    have hclose : q.token.kind = .symbol .rightParen := hq.kind
    have hfalse : ¬ comma = true := fun h => hcomma h rfl
    rw [if_pos hclose, if_neg hfalse]
    exact ⟨by simp, v, by simpa [Expr.wordsOfAll] using hq⟩
  | cons e todo =>
    obtain ⟨x, t, rfl, ht⟩ := hprev (by simp)
    obtain ⟨he, htodo⟩ : e.wellFormed true = true ∧ Expr.allWellFormed todo = true := by
      have := (Expr.allWellFormed_append done (e :: todo)).symm.trans hargs
      simp only [Expr.allWellFormed, Bool.and_eq_true] at this
      exact this.2
    obtain ⟨w, ws', hwords, hend, hnext⟩ : ∃ w ws',
        Expr.wordsOfAll (e :: todo) ++ Symbol.word .rightParen :: ws = e.words ++ w :: ws' ∧
        w.1 ∈ Ends.argument ∧
        ((todo = [] ∧ w = Symbol.word .rightParen ∧ ws' = ws) ∨
          (todo ≠ [] ∧ w = Symbol.word .comma ∧
            ws' = Expr.wordsOfAll todo ++ Symbol.word .rightParen :: ws)) := by
      cases todo with
      | nil => exact ⟨_, _, by simp [Expr.wordsOfAll], by decide, .inl ⟨rfl, rfl, rfl⟩⟩
      | cons b todo =>
        exact ⟨_, _, by simp [Expr.wordsOfAll], by decide, .inr ⟨by simp, rfl, rfl⟩⟩
    rw [hwords] at hq
    rw [if_neg (kind_ne_of_words hq.words (.inl rfl))]
    refine sub_complete hn hanswer hq ht he hend (fun _ => hend) (by simp) fun y r _ hr => ?_
    rw [← Expr.postorderOfAll_concat] at hr
    have hlen : r.upcoming.length < q.upcoming.length := by
      have hpos := List.length_pos_iff.2 e.words_ne_nil
      have h₁ := q.length_words
      have h₂ := r.length_words
      simp only [hq.words, hr.words, List.length_append, List.length_cons] at h₁ h₂
      omega
    have hkind := hr.kind
    rcases hnext with ⟨rfl, rfl, rfl⟩ | ⟨hne, rfl, rfl⟩
    · rw [Symbol.word_fst] at hkind
      rw [if_neg (by simp [hkind]), if_pos hkind]
      exact ⟨⟨done ++ [e], [], _, by simp, by simp, hr, by simp, by simp⟩, hlen⟩
    · rw [Symbol.word_fst] at hkind
      rw [if_pos hkind]
      refine advance_complete hr (by simp) (by simp) fun s hs _ => ?_
      refine ⟨⟨done ++ [e], todo, _, by simp, by simp, hs, fun _ => ⟨_, _, rfl, by rw [hkind]; rfl⟩,
        fun _ => hne⟩, ?_⟩
      have := s.length_words
      have := r.length_words
      simp only [hr.words, hs.words, List.length_cons] at *
      omega

theorem call_complete (hn : Nests n sub p₀) (hanswer : ctx.answer = false)
    (hargs : Expr.allWellFormed args = true)
    (h : p₀.Faces u []
      (Symbol.word .leftParen :: (Expr.wordsOfAll args ++ Symbol.word .rightParen :: ws)) p)
    (hclear : isClear ws = true) :
    Ensures (call sub ctx t) p (fun _ q => Taken p₀ (.call t.text args) ws q) OnlyShort := by
  simp only [call, ensures_bind]
  refine advance_complete h (by simp) (by simp) fun q hq _ => ?_
  refine (callArguments_complete hn hanswer (by rw [h.kind]; rfl) hargs hq).imp ?_
  rintro count r ⟨rfl, v, hr⟩
  refine intern_complete hr (.function _) fun id s hs hfound => ?_
  obtain ⟨g, hg, hname⟩ := hfound
  refine emitWith_complete hs rfl (s := .call args.length t.text) ⟨id, g, rfl, hg, hname⟩
    fun z hz => ?_
  exact advance_complete hz (by simp) hclear fun y hy _ => ⟨_, hy⟩

/-- An operand that starts with a name, where neither a call nor a bracket is mistaken for
another. -/
theorem var_complete (hp : p.InOrder) (hw : p.words = (.name, name) :: w :: ws)
    (herror : w.1 ≠ .error) (hparen : w.1 ≠ .symbol .leftParen)
    (hbracket : w.1 ≠ .symbol .leftBracket) :
    Ensures (named sub ctx calls) p
      (fun b q => b = true ∧ Taken p (.var name) (w :: ws) q) OnlyShort := by
  have htext : p.token.text = name := Pass.text_of_words hw (.inr (.inr rfl))
  have hclear : isClear (w :: ws) = true := by simpa [isClear] using herror
  simp only [named, behindName, ensures_bind, ensures_get, htext]
  refine advance_complete (.start hp hw) (by simp) hclear fun q hq _ => ?_
  have hk := hq.kind
  simp only [ensures_kind]
  split
  · next h => exact absurd (hk.symm.trans h) hbracket
  · next h => exact absurd (hk.symm.trans h) hparen
  · simp only [ensures_bind, ensures_pure]
    refine intern_complete hq (.var _) fun i r hr hi => ?_
    exact emitWith_complete hr rfl (s := .var name) ⟨i, rfl, hi⟩ fun s hs => ⟨trivial, _, hs⟩

theorem elem_complete (hn : Nests n sub p) (hanswer : ctx.answer = false) {index : Expr}
    (hindex : index.wellFormed false = true)
    (hw : p.words = (Expr.elem name index).words ++ ws) (hclear : isClear ws = true) :
    Ensures (named sub ctx calls) p
      (fun b q => b = true ∧ Taken p (.elem name index) ws q) OnlyShort := by
  simp only [Expr.words, List.cons_append, List.append_assoc, List.nil_append] at hw
  have htext : p.token.text = name := Pass.text_of_words hw (.inr (.inr rfl))
  simp only [named, behindName, ensures_bind, ensures_get, htext]
  refine advance_complete (.start hn.inOrder hw) (by simp) (by simp) fun q₁ h₁ _ => ?_
  have hk₁ : q₁.token.kind = .symbol .leftBracket := h₁.kind
  simp only [ensures_kind, hk₁, ensures_bind]
  refine advance_complete h₁ (by simp) (by simp) fun q₂ h₂ _ => ?_
  refine intern_complete h₂ (.array _) fun i q₃ h₃ hi => ?_
  have hclose : ¬ q₃.token.kind = .symbol .rightBracket := kind_ne_of_words h₃.words (.inr rfl)
  simp only [ensures_isAt, ensures_ite, beq_iff_eq, hclose, if_false, ensures_bind, ensures_pure]
  refine sub_complete hn hanswer h₃ (by rw [hk₁]; rfl) hindex (by decide)
    (by simp [Expr.isWhole_of_wellFormed hindex]) (by simp) fun v q₄ hgrows h₄ => ?_
  refine expect_complete h₄ hclear fun q₅ h₅ hprogram => ?_
  exact emitWith_complete h₅ rfl (s := .elem name) ⟨i, rfl, hprogram ▸ hgrows.arrays _ _ hi⟩
    fun r hr => ⟨trivial, _, hr⟩

theorem whole_complete (hp : p.InOrder) (harray : ctx.wholeArray = true)
    (hw : p.words = Expr.wholeWords name ++ w :: ws) (hend : w.1 ∈ Ends.argument) :
    Ensures (named sub ctx calls) p
      (fun b q => b = false ∧ Taken p (.whole name) (w :: ws) q) OnlyShort := by
  have hclear : isClear (w :: ws) = true := by
    simp only [isClear, bne_iff_ne]
    rintro h
    simp [h, Ends.argument] at hend
  simp only [Expr.wholeWords, List.cons_append, List.nil_append] at hw
  have htext : p.token.text = name := Pass.text_of_words hw (.inr (.inr rfl))
  simp only [named, behindName, ensures_bind, ensures_get, htext]
  refine advance_complete (.start hp hw) (by simp) (by simp) fun q₁ h₁ _ => ?_
  have hk₁ : q₁.token.kind = .symbol .leftBracket := h₁.kind
  simp only [ensures_kind, hk₁, ensures_bind]
  refine advance_complete h₁ (by simp) (by simp) fun q₂ h₂ _ => ?_
  refine intern_complete h₂ (.array _) fun i q₃ h₃ hi => ?_
  have hk₃ : q₃.token.kind = .symbol .rightBracket := h₃.kind
  simp only [ensures_isAt, ensures_ite, hk₃, beq_self_eq_true, if_true, ensures_bind, ensures_pure,
    wholeArray, harray]
  refine advance_complete h₃ (by simp) hclear fun q₄ h₄ hprogram => ?_
  have hcond :
      (q₄.token.kind == .symbol .comma || q₄.token.kind == .symbol .rightParen) = true := by
    simpa [h₄.kind, Ends.argument, or_comm] using hend
  rw [if_pos hcond]
  exact emitWith_complete h₄ rfl (s := .array name) ⟨i, rfl, hprogram ▸ hi⟩
    fun r hr => ⟨trivial, _, hr⟩

theorem namedCall_complete (hn : Nests n sub p) (hanswer : ctx.answer = false)
    (hargs : Expr.allWellFormed args = true) (hw : p.words = (Expr.call name args).words ++ ws)
    (hclear : isClear ws = true) : Ensures (named sub ctx true) p
      (fun b q => b = false ∧ Taken p (.call name args) ws q) OnlyShort := by
  simp only [Expr.words, List.cons_append, List.append_assoc, List.nil_append] at hw
  have htext : p.token.text = name := Pass.text_of_words hw (.inr (.inr rfl))
  simp only [named, behindName, ensures_bind, ensures_get]
  refine advance_complete (.start hn.inOrder hw) (by simp) (by simp) fun q hq _ => ?_
  have hk : q.token.kind = .symbol .leftParen := hq.kind
  simp only [ensures_kind, hk, if_true, ensures_bind, ensures_pure]
  exact (call_complete hn hanswer hargs hq hclear).imp fun _ r hr => ⟨trivial, htext ▸ hr⟩

theorem query_complete (hp : p.InOrder) {f : Query} (hw : p.words = (Expr.query f).words ++ ws)
    (hclear : isClear ws = true) :
    Ensures (query f) p (fun _ q => Taken p (.query f) ws q) OnlyShort := by
  simp only [Expr.words, List.cons_append, List.nil_append] at hw
  simp only [query, ensures_bind, ensures_get]
  refine advance_complete (.start hp hw) (by simp) (by simp) fun q₁ h₁ _ => ?_
  refine expect_complete h₁ (by simp) fun q₂ h₂ _ => ?_
  have hk : q₂.token.kind = .symbol .rightParen := h₂.kind
  simp only [ensures_isAt, hk, beq_self_eq_true, if_true, ensures_bind]
  refine advance_complete h₂ (by simp) hclear fun q₃ h₃ _ => ?_
  exact emit_complete h₃ rfl fun r hr => ⟨_, hr⟩

/-- The argument of a builtin that has one. -/
theorem builtinArguments_complete (hn : Nests n sub p₀) (hanswer : ctx.answer = false)
    (h : p₀.Faces (u ++ [t]) code (e.words ++ Symbol.word .rightParen :: ws) p)
    (ht : t.kind = .symbol .leftParen) {array : Bool} (he : e.wellFormed array = true)
    (hclear : isClear ws = true) {Q : Nat → Pass → Prop}
    (hQ : ∀ v q, p₀.Faces v (code ++ e.postorder) ws q → Q 1 q) :
    Ensures (builtinArguments sub (ctx.inner array)) p Q OnlyShort := by
  simp only [builtinArguments, ensures_bind, ensures_isAt, ensures_ite, ensures_pure, beq_iff_eq]
  rw [if_neg (kind_ne_of_words h.words (.inl rfl))]
  simp only [perToken, ensures_bind, ensures_get]
  -- behind the one argument there is no comma, so that there is one repetition
  refine ensures_iterate_of_step (fun q => q.upcoming.length) (Nat.le_refl _) ?_
  simp only [builtinStep, ensures_bind, ensures_isAt, ensures_ite, ensures_pure, beq_iff_eq]
  refine sub_complete hn hanswer h (by rw [ht]; rfl) he (by decide) (fun _ => by decide) (by simp)
    fun v q _ hq => ?_
  have hk : q.token.kind = .symbol .rightParen := hq.kind
  rw [if_neg (by simp [hk])]
  exact expect_complete hq hclear fun r hr _ => hQ _ r hr

theorem unary_complete (hn : Nests n sub p) (hanswer : ctx.answer = false) {f : Unary}
    (he : e.wellFormed f.takesArray = true) (hw : p.words = (Expr.unary f e).words ++ ws)
    (hclear : isClear ws = true) :
    Ensures (unary sub ctx f) p (fun _ q => Taken p (.unary f e) ws q) OnlyShort := by
  simp only [Expr.words, List.cons_append, List.append_assoc, List.nil_append] at hw
  simp only [unary, ensures_bind, ensures_get]
  refine advance_complete (.start hn.inOrder hw) (by simp) (by simp) fun q₁ h₁ _ => ?_
  refine expect_complete h₁ (by simp) fun q₂ h₂ _ => ?_
  refine builtinArguments_complete hn hanswer h₂ h₁.kind he hclear fun v q₃ h₃ => ?_
  rw [if_pos rfl]
  exact emit_complete h₃ (by cases f <;> rfl) fun r hr => ⟨_, hr⟩

theorem scaleOf_complete (hn : Nests n sub p) (hanswer : ctx.answer = false)
    (he : e.wellFormed false = true) (hw : p.words = (Expr.scaleOf e).words ++ ws)
    (hclear : isClear ws = true) :
    Ensures (scale sub ctx) p (fun b q => b = false ∧ Taken p (.scaleOf e) ws q) OnlyShort := by
  simp only [Expr.words, List.cons_append, List.append_assoc, List.nil_append] at hw
  simp only [scale, ensures_bind, ensures_get]
  refine advance_complete (.start hn.inOrder hw) (by simp) (by simp) fun q₁ h₁ _ => ?_
  have hk₁ : q₁.token.kind = .symbol .leftParen := h₁.kind
  simp only [ensures_isAt, hk₁, beq_self_eq_true, if_true, ensures_bind]
  refine advance_complete h₁ (by simp) (by simp) fun q₂ h₂ _ => ?_
  refine builtinArguments_complete hn hanswer h₂ hk₁ he hclear fun v q₃ h₃ => ?_
  simp only [if_true, ensures_bind, ensures_pure]
  exact emit_complete h₃ rfl fun r hr => ⟨trivial, _, hr⟩

theorem scale_complete (hp : p.InOrder) (hw : p.words = Keyword.word (.setting .scale) :: w :: ws)
    (herror : w.1 ≠ .error) (hparen : w.1 ≠ .symbol .leftParen) :
    Ensures (scale sub ctx) p
      (fun b q => b = true ∧ Taken p (.setting .scale) (w :: ws) q) OnlyShort := by
  have hclear : isClear (w :: ws) = true := by simpa [isClear] using herror
  simp only [scale, ensures_bind, ensures_get]
  refine advance_complete (.start hp hw) (by simp) hclear fun q hq _ => ?_
  have hk : ¬ q.token.kind = .symbol .leftParen := hq.kind ▸ hparen
  simp only [ensures_isAt, ensures_ite, beq_iff_eq, hk, if_false, ensures_bind, ensures_pure]
  exact emit_complete hq rfl fun r hr => ⟨trivial, _, hr⟩

theorem argumentAndComma_complete (hn : Nests n sub p₀) (hanswer : ctx.answer = false) {t' : Token}
    (h : p₀.Faces (u ++ [t]) code (e.words ++ Symbol.word .comma :: ws) p)
    (ht : t.kind.blocksStep = false) (he : e.wellFormed false = true) (hclear : isClear ws = true)
    (hQ : ∀ v q (t : Token), p₀.Faces (v ++ [t]) (code ++ e.postorder) ws q →
      t.kind.blocksStep = false → Q () q) : Ensures (argumentAndComma sub ctx t') p Q OnlyShort := by
  simp only [argumentAndComma, ensures_bind, ensures_isAt, ensures_ite, beq_iff_eq]
  refine sub_complete hn hanswer h ht he (by decide) (by simp [Expr.isWhole_of_wellFormed he])
    (by simp) fun v q _ hq => ?_
  have hk : q.token.kind = .symbol .comma := hq.kind
  rw [if_pos hk]
  exact advance_complete hq (by simp) hclear fun r hr _ => hQ _ r _ hr (by rw [hk]; rfl)

theorem remainderArray_complete (h : p₀.Faces u code (Expr.wholeWords name ++ ws) p)
    (hclear : isClear ws = true) {Q : Nat → Pass → Prop}
    (hQ : ∀ i v q, p₀.Faces v code ws q → q.program.arrays.get? i = some name → Q i q) :
    Ensures remainderArray p Q OnlyShort := by
  simp only [Expr.wholeWords, List.cons_append, List.nil_append] at h
  have htext : p.token.text = name := Pass.text_of_words h.words (.inr (.inr rfl))
  have hk : p.token.kind = .name := h.kind
  simp only [remainderArray, ensures_bind, ensures_get, hk, if_true, htext]
  refine advance_complete h (by simp) (by simp) fun q₁ h₁ _ => ?_
  have hk₁ : q₁.token.kind = .symbol .leftBracket := h₁.kind
  simp only [ensures_isAt, hk₁, beq_self_eq_true, if_true, ensures_bind]
  refine advance_complete h₁ (by simp) (by simp) fun q₂ h₂ _ => ?_
  have hk₂ : q₂.token.kind = .symbol .rightBracket := h₂.kind
  simp only [hk₂, beq_self_eq_true, if_true, ensures_bind]
  refine advance_complete h₂ (by simp) hclear fun q₃ h₃ _ => ?_
  exact intern_complete h₃ (.array _) fun i q₄ h₄ hi => hQ i _ q₄ h₄ hi

theorem modexp_complete (hn : Nests n sub p) (hanswer : ctx.answer = false) {a b c : Expr}
    (ha : a.wellFormed false = true) (hb : b.wellFormed false = true)
    (hc : c.wellFormed false = true) (hw : p.words = (Expr.modexp a b c).words ++ ws)
    (hclear : isClear ws = true) :
    Ensures (ternary sub ctx .modexp) p (fun _ q => Taken p (.modexp a b c) ws q) OnlyShort := by
  simp only [Expr.words, List.cons_append, List.append_assoc, List.nil_append] at hw
  simp only [ternary, ensures_bind, ensures_get]
  refine advance_complete (.start hn.inOrder hw) (by simp) (by simp) fun q₁ h₁ _ => ?_
  refine expect_complete h₁ (by simp) fun q₂ h₂ _ => ?_
  refine argumentAndComma_complete hn hanswer h₂ (by rw [h₁.kind]; rfl) ha (by simp)
    fun v₃ q₃ t₃ h₃ ht₃ => ?_
  refine argumentAndComma_complete hn hanswer h₃ ht₃ hb (by simp) fun v₄ q₄ t₄ h₄ ht₄ => ?_
  refine sub_complete hn hanswer h₄ ht₄ hc (by decide) (by simp [Expr.isWhole_of_wellFormed hc])
    (by simp) fun v q₅ _ h₅ => ?_
  have hk₅ : q₅.token.kind = .symbol .rightParen := h₅.kind
  simp only [ensures_isAt, hk₅, beq_self_eq_true, if_true, ensures_bind]
  refine emit_complete h₅ rfl fun r hr => ?_
  exact advance_complete hr (by simp) hclear fun s hs _ => ⟨_, hs⟩

theorem divmod_complete (hn : Nests n sub p) (hanswer : ctx.answer = false) {a b : Expr}
    (ha : a.wellFormed false = true) (hb : b.wellFormed false = true)
    (hw : p.words = (Expr.divmod a b name).words ++ ws) (hclear : isClear ws = true) :
    Ensures (ternary sub ctx .divmod) p (fun _ q => Taken p (.divmod a b name) ws q) OnlyShort := by
  simp only [Expr.words, List.cons_append, List.append_assoc, List.nil_append] at hw
  simp only [ternary, ensures_bind, ensures_get]
  refine advance_complete (.start hn.inOrder hw) (by simp) (by simp) fun q₁ h₁ _ => ?_
  refine expect_complete h₁ (by simp) fun q₂ h₂ _ => ?_
  refine argumentAndComma_complete hn hanswer h₂ (by rw [h₁.kind]; rfl) ha (by simp)
    fun v₃ q₃ t₃ h₃ ht₃ => ?_
  refine argumentAndComma_complete hn hanswer h₃ ht₃ hb (by simp [Expr.wholeWords, isClear])
    fun v₄ q₄ t₄ h₄ ht₄ => ?_
  refine remainderArray_complete h₄ (by simp) fun i v₅ q₅ h₅ hi => ?_
  have hk₅ : q₅.token.kind = .symbol .rightParen := h₅.kind
  simp only [ensures_isAt, hk₅, beq_self_eq_true, if_true, ensures_bind]
  refine storeRemainder_step (h₅.compiles.inOrder hn.inOrder) hi fun r hr hr' => ?_
  have hface : p.Faces _ _ _ r :=
    ⟨hn.inOrder, h₅.compiles.trans hr, (Pass.words_eq_of_rest_eq hr').trans h₅.words⟩
  exact advance_complete hface (by simp) hclear fun s hs _ => ⟨_, hs⟩

theorem setting_step (hp : p.InOrder) {s : Setting}
    (hw : p.words = Keyword.word (.setting s) :: ws) (hclear : isClear ws = true)
    (hQ : ∀ q, Taken p (.setting s) ws q → Q () q) :
    Ensures (emit (.setting s)) p (fun _ q => Ensures advance q Q OnlyShort) OnlyShort :=
  emit_complete (.start hp hw) rfl fun _ hq =>
    advance_complete hq (by simp) hclear fun r hr _ => hQ r ⟨_, hr⟩

/-- **An operand of the grammar is compiled.** -/
theorem operand_complete (hn : Nests n sub p) (hanswer : ctx.answer = false)
    (hleaf : e.isLeaf = true) (he : e.wellFormed ctx.wholeArray = true)
    (hw : p.words = e.words ++ w :: ws) (herror : w.1 ≠ .error) (hparen : w.1 ≠ .symbol .leftParen)
    (hbracket : w.1 ≠ .symbol .leftBracket) (hend : e.isWhole = true → w.1 ∈ Ends.argument) :
    Ensures (operand sub ctx) p
      (fun b q => b = e.isTarget ∧ Taken p e (w :: ws) q) OnlyShort := by
  have hp := hn.inOrder
  have hclear : isClear (w :: ws) = true := by simpa [isClear] using herror
  simp only [operand, ensures_bind, ensures_kind]
  cases e with
  | number text =>
    have hk : p.token.kind = .number := Pass.kind_of_words hw
    simp only [hk, ensures_bind, ensures_pure]
    exact (number_complete hp hw hclear).imp fun _ _ hq => ⟨rfl, hq⟩
  | string text =>
    have hk : p.token.kind = .string := Pass.kind_of_words hw
    simp only [hk, ensures_bind, ensures_pure]
    exact (string_complete hp hw hclear).imp fun _ _ hq => ⟨rfl, hq⟩
  | var name =>
    have hk : p.token.kind = .name := Pass.kind_of_words hw
    simp only [hk]
    exact var_complete hp hw herror hparen hbracket
  | elem name index =>
    have hk : p.token.kind = .name := Pass.kind_of_words hw
    simp only [hk]
    exact elem_complete hn hanswer he hw hclear
  | whole name =>
    have hk : p.token.kind = .name := Pass.kind_of_words hw
    simp only [hk]
    exact whole_complete hp he hw (hend rfl)
  | call name args =>
    have hk : p.token.kind = .name := Pass.kind_of_words hw
    simp only [hk]
    exact namedCall_complete hn hanswer he hw hclear
  | setting s =>
    have hk : p.token.kind = .keyword (.setting s) := Pass.kind_of_words hw
    cases s with
    | scale =>
      simp only [hk]
      exact scale_complete hp hw herror hparen
    | _ =>
      simp only [hk, ensures_bind, ensures_pure]
      exact setting_step hp hw hclear fun q hq => ⟨rfl, hq⟩
  | query f =>
    have hk : p.token.kind = .keyword (.query f) := Pass.kind_of_words hw
    simp only [hk, hanswer, Bool.false_eq_true, and_false, if_false, ensures_bind, ensures_pure]
    exact (query_complete hp hw hclear).imp fun _ _ hq => ⟨rfl, hq⟩
  | unary f arg =>
    have hk : p.token.kind = .keyword (.unary f) := Pass.kind_of_words hw
    simp only [hk, ensures_bind, ensures_pure]
    exact (unary_complete hn hanswer he hw hclear).imp fun _ _ hq => ⟨rfl, hq⟩
  | scaleOf arg =>
    have hk : p.token.kind = .keyword (.setting .scale) := Pass.kind_of_words hw
    simp only [hk]
    exact scaleOf_complete hn hanswer he hw hclear
  | modexp a b c =>
    have hk : p.token.kind = .keyword (.ternary .modexp) := Pass.kind_of_words hw
    simp only [Expr.wellFormed, Bool.and_eq_true] at he
    simp only [hk, ensures_bind, ensures_pure]
    exact (modexp_complete hn hanswer he.1.1 he.1.2 he.2 hw hclear).imp fun _ _ hq => ⟨rfl, hq⟩
  | divmod a b name =>
    have hk : p.token.kind = .keyword (.ternary .divmod) := Pass.kind_of_words hw
    simp only [Expr.wellFormed, Bool.and_eq_true] at he
    simp only [hk, ensures_bind, ensures_pure]
    exact (divmod_complete hn hanswer he.1 he.2 hw hclear).imp fun _ _ hq => ⟨rfl, hq⟩
  | _ => simp [Expr.isLeaf] at hleaf

end Compile

end DeskCalc
