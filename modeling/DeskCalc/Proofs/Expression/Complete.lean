import DeskCalc.Proofs.Operand.Complete
import DeskCalc.Proofs.Expression.End

/-!
# Expressions of the grammar are compiled

Where the words of an expression of the grammar are ahead, and behind them a word that ends it, the
expression is compiled (`expression_complete`); only a full table can stand in the way.

The proof follows the tree. `ReadsOver` says that from every place where the tree can stand the loop
over the tokens gets behind its words, with the operators on its right edge still waiting and its
last operand just read. There is one lemma for each way to build a tree, and each of them goes
through the tokens of its own: `Continues` is what is known of the loop behind such a token.
-/

namespace DeskCalc

/-- The next word can stand behind an operand. -/
def canFollow : List Word → Bool
  | [] => false
  | w :: _ => w.1 != .error && w.1 != .symbol .leftParen && w.1 != .symbol .leftBracket

theorem isClear_of_canFollow {ws : List Word} (h : canFollow ws = true) : isClear ws = true := by
  cases ws with
  | nil => exact h
  | cons w ws =>
    simp only [canFollow, Bool.and_eq_true] at h
    exact h.1.1

theorem canFollow_symbol {s : Symbol} (hparen : s ≠ .leftParen) (hbracket : s ≠ .leftBracket)
    (ws : List Word) : canFollow (s.word :: ws) = true := by
  simp [canFollow, hparen, hbracket]

theorem canFollow_operator {op : Operator} (hop : op.isBinary = true) (ws : List Word) :
    canFollow (op.word :: ws) = true := by
  cases op with
  | neg | not | paren => simp [Operator.isBinary, Operator.isUnary] at hop
  | _ => rfl

/-- The token stands behind every expression. -/
def Token.Kind.endsExpression : Token.Kind → Bool
  | .newline | .eof => true
  | .symbol .semicolon | .symbol .rightBrace | .symbol .comma => true
  | .symbol .rightParen | .symbol .rightBracket => true
  | _ => false

theorem canFollow_end {w : Word} (hw : w.1.endsExpression = true) (ws : List Word) :
    canFollow (w :: ws) = true := by
  simp only [canFollow, Bool.and_eq_true, bne_iff_ne]
  refine ⟨⟨?_, ?_⟩, ?_⟩ <;> intro h <;> simp [h, Token.Kind.endsExpression] at hw

/-- The ends that expressions have in statements, arguments, subscripts and answers. -/
def Ends.all : List Ends :=
  [Ends.statement, Ends.argument, Ends.printItem, Ends.condition, Ends.subscript, Ends.clause,
    Ends.answer]

theorem Ends.endsExpression {ends : Ends} (h : ends ∈ Ends.all) {k : Token.Kind} (hk : k ∈ ends) :
    k.endsExpression = true := by
  have hall : ∀ ends ∈ Ends.all, ∀ k ∈ ends, k.endsExpression = true := by decide
  exact hall ends h k hk

namespace Pass

variable {p q : Pass} {u : List Token} {code : List Symbolic} {e : Expr} {ws : List Word}

/-- The tokens read are those whose words are no longer ahead. -/
theorem Compiles.map_word (h : p.Compiles u code q) {words : List Word}
    (hp : p.words = words ++ q.words) : u.map Token.word = words := by
  rw [Pass.words, h.rest_eq, List.map_append] at hp
  exact List.append_cancel_right hp

/-- The words of an expression are no line feeds. -/
theorem wordsOf_of_map (h : u.map Token.word = e.words) : wordsOf u = e.words := by
  have hall := e.all_words_isInner
  rw [← h, wordsOf]
  congr 1
  rw [List.filter_eq_self]
  intro t ht
  rw [← h, List.all_eq_true] at hall
  have := hall t.word (List.mem_map_of_mem ht)
  simp only [Expr.isInner, Token.word_fst, Bool.and_eq_true] at this
  exact this.1.1.2

theorem kind_ne_newline (hp : p.words = e.words ++ ws) : p.token.kind ≠ .newline := by
  have hall := e.all_words_isInner
  cases h : e.words with
  | nil => exact absurd h e.words_ne_nil
  | cons w ws' =>
    rw [h] at hp hall
    simp only [List.all_cons, Expr.isInner, Bool.and_eq_true, bne_iff_ne] at hall
    rw [kind_of_words hp]
    exact hall.1.1.1.2

/-- The token before the current one is the last that was read. -/
theorem Compiles.previous_of_words (h : p.Compiles u code q) (hu : u.map Token.word = e.words) :
    q.previous = e.lastWord.1 := by
  obtain ⟨is, his, -⟩ := h.progress
  have hlast : (u.map Token.word).getLast? = some e.lastWord := by
    rw [hu, Expr.lastWord, List.getLast?_eq_some_getLast]
  rw [List.getLast?_map, Option.map_eq_some_iff] at hlast
  obtain ⟨t, ht, hword⟩ := hlast
  rw [his.previous, ht, ← hword, Token.word_fst]
  rfl

end Pass

namespace Compile

variable {p₀ p : Pass} {array : Bool} {fs : List Frame} {x : Option Expr} {e : Expr} {t : Tally}
  {op : Operator} {sub : Sub} {ctx : Context} {n : Nat} {w : Word} {ws : List Word}
  {Q : Option Tally → Pass → Prop} {base : Nat} {up : Bool} {R : Turn → Pass → Prop} {ends : Ends}
  {E : Stop → Pass → Prop}

/-- From here the loop over the tokens of an expression comes to `Q`. -/
def Reaches (sub : Sub) (base : Nat) (Q : Option Tally → Pass → Prop) (ctx : Context) (t : Tally)
    (p : Pass) : Prop :=
  ∀ bound : List Reading, p.upcoming.length ≤ bound.length →
    Ensures (iterate (turnStep sub base) bound (ctx, t)) p Q OnlyShort

theorem Reaches.turns (h : Reaches sub base Q ctx {} p) : Ensures (turns sub base ctx) p Q OnlyShort :=
  h p.upcoming (Nat.le_refl _)

/-- One turn of the loop. -/
theorem reaches_of_turn
    (h : Ensures (turn sub base ctx t) p (fun r q =>
      match r with
      | .more t' => q.upcoming.length < p.upcoming.length ∧
          Reaches sub base Q { ctx with wholeArray := false } t' q
      | .stop t' => Q (some t') q
      | .empty => Q none q) OnlyShort) : Reaches sub base Q ctx t p := by
  intro bound hb
  refine ensures_iterate_of_step (fun q => q.upcoming.length) hb ?_
  simp only [turnStep, ensures_bind]
  refine h.imp ?_
  rintro (t' | t' | _) q hq
  · exact hq
  · exact hq
  · exact hq

/-- Moving on to a word that is no error cannot fail. -/
theorem movesOn_of_words (hw : p.words = w :: ws) (hclear : isClear ws = true) :
    MovesOn p OnlyShort := by
  rintro s code r - ⟨is, his, -⟩ hk
  rw [Pass.words, his.rest] at hw
  have hr : r.words = ws := (List.cons.inj hw).2
  rw [← hr] at hclear
  simp [Pass.words, Pass.rest, isClear, hk] at hclear

/-- Reading a token leaves the words behind it. -/
theorem words_of_emits {q : Pass} {code : List Symbolic} (hw : p.words = w :: ws)
    (hq : p.Emits [p.token] code q) :
    q.words = ws ∧ q.upcoming.length < p.upcoming.length ∧ q.previous = w.1 := by
  obtain ⟨is, his, -⟩ := hq
  have hlength := his.length_eq
  have hprevious := his.previous
  simp only [List.length_singleton] at hlength
  rw [← Pass.kind_of_words hw]
  rw [Pass.words, his.rest] at hw
  exact ⟨(List.cons.inj hw).2, by omega, by simpa using hprevious⟩

/-! ## One token -/

/-- What can be said after the token `w` was read and the expression goes on: from every place that
is left of it the rest of the loop comes to `Q`. -/
def Continues (sub : Sub) (Q : Option Tally → Pass → Prop) (p₀ : Pass) (array : Bool)
    (ctx : Context) (fs : List Frame) (x : Option Expr) (w : Word) (ws : List Word) : Prop :=
  ∀ t q, Partway p₀ array fs x t q → q.words = ws → q.previous = w.1 →
    Reaches sub p₀.operators.length Q { ctx with wholeArray := false } t q

theorem Continues.more (h : Continues sub Q p₀ array ctx fs x w ws)
    (hw : p.words = w :: ws) {q : Pass} {code : List Symbolic} (hq : p.Emits [p.token] code q)
    (h' : Partway p₀ array fs x t q) : q.upcoming.length < p.upcoming.length ∧
      Reaches sub p₀.operators.length Q { ctx with wholeArray := false } t q := by
  obtain ⟨hwords, hlt, hprevious⟩ := words_of_emits hw hq
  exact ⟨hlt, h t q h' hwords hprevious⟩

/-- Only before the first token does the context allow a whole array. -/
theorem Continues.later (h : Continues sub Q p₀ array ctx fs x w ws) :
    Continues sub Q p₀ array { ctx with wholeArray := false } fs x w ws := h

theorem openParen_complete (hp₀ : p₀.InOrder) (h : Partway p₀ array fs none t p)
    (hw : p.words = Symbol.word .leftParen :: ws) (hclear : isClear ws = true)
    (hnext : Continues sub Q p₀ array ctx (.paren :: fs) none (Symbol.word .leftParen) ws) :
    Reaches sub p₀.operators.length Q ctx t p := by
  have hk : p.token.kind = .symbol .leftParen := Pass.kind_of_words hw
  refine reaches_of_turn ?_
  simp only [turn, ensures_bind, ensures_kind, hk, h.complete_eq, Option.isSome_none,
    Bool.false_eq_true, if_false, ensures_pure]
  refine push_step hp₀ (movesOn_of_words hw hclear) h (by simp [hk]) fun q hq ho => ?_
  exact hnext.more hw hq (h.openParen hq (by rw [wordsOf_symbol hk]; rfl) ho)

theorem closeParen_complete (hp₀ : p₀.InOrder) {gs : List Frame}
    (h : Partway p₀ array (gs ++ .paren :: fs) (some e) t p)
    (hgs : ∀ g ∈ gs, g.isParen = false) (hprevious : p.previous ≠ .symbol .leftParen)
    (hw : p.words = Symbol.word .rightParen :: ws) (hclear : isClear ws = true)
    (hnext : Continues sub Q p₀ array ctx fs (some (.paren (plugAll gs e)))
      (Symbol.word .rightParen) ws) :
    Reaches sub p₀.operators.length Q ctx t p := by
  have hk : p.token.kind = .symbol .rightParen := Pass.kind_of_words hw
  refine reaches_of_turn ?_
  simp only [turn, ensures_bind, ensures_kind, hk]
  exact closeParen_step hp₀ (movesOn_of_words hw hclear) h hgs hk hprevious
    fun t' q _ hq hq' => hnext.more hw hq hq'

theorem trunc_complete (hp₀ : p₀.InOrder) (h : Partway p₀ array fs (some e) t p)
    (hw : p.words = Symbol.word .dollar :: ws) (hclear : isClear ws = true)
    (hnext : Continues sub Q p₀ array ctx fs (some (.trunc e)) (Symbol.word .dollar) ws) :
    Reaches sub p₀.operators.length Q ctx t p := by
  have hk : p.token.kind = .symbol .dollar := Pass.kind_of_words hw
  refine reaches_of_turn ?_
  simp only [turn, ensures_bind, ensures_kind, hk, h.complete_eq, Option.isSome_some, if_true,
    ensures_pure]
  exact trunc_step hp₀ (movesOn_of_words hw hclear) h hk fun q _ hq hq' => hnext.more hw hq hq'

/-- The turn at the symbol of a step. -/
theorem turn_step (hk : p.token.kind = .symbol (Expr.stepSymbol up))
    (h : Ensures (stepBy sub ctx up t) p (fun t' q => R (.more t') q) E) :
    Ensures (turn sub base ctx t) p R E := by
  cases up <;> simpa only [turn, ensures_bind, ensures_kind, hk, Expr.stepSymbol,
    Bool.false_eq_true, if_false, if_true, ensures_pure] using h

theorem not_blocked (hprevious : p.previous.blocksStep = false) :
    ¬ p.previous = .symbol .increment ∧ ¬ p.previous = .symbol .decrement ∧
      ¬ p.previous = .symbol .rightParen := by
  simp only [Token.Kind.blocksStep, Bool.or_eq_false_iff, beq_eq_false_iff_ne] at hprevious
  exact ⟨hprevious.1.2, hprevious.2, hprevious.1.1⟩

theorem postStep_complete (hp₀ : p₀.InOrder) (h : Partway p₀ array fs (some e) t p)
    (htarget : e.isTarget = true) (hprevious : p.previous.blocksStep = false)
    (hw : p.words = Symbol.word (Expr.stepSymbol up) :: ws) (hclear : isClear ws = true)
    (hnext : Continues sub Q p₀ array ctx fs (some (.postStep e up))
      (Symbol.word (Expr.stepSymbol up)) ws) : Reaches sub p₀.operators.length Q ctx t p := by
  have hk : p.token.kind = .symbol (Expr.stepSymbol up) := Pass.kind_of_words hw
  have hassignable : t.assignable = true := by
    rw [h.assignable]
    cases e <;> simp_all [Expr.isTarget, Expr.isAssignable]
  have hstepped : t.stepped = false := by
    rw [h.stepped]
    cases e <;> simp_all [Expr.isTarget, Expr.isStep]
  obtain ⟨hinc, hdec, hparen⟩ := not_blocked hprevious
  refine reaches_of_turn (turn_step hk ?_)
  simp only [stepBy, ensures_bind, ensures_get, ensures_ite, h.complete_eq, hstepped, hassignable,
    hinc, hdec, hparen, decide_false, Bool.or_self, Bool.false_eq_true, if_false,
    Option.isSome_some, if_true, ensures_pure]
  exact postStep_step hp₀ (movesOn_of_words hw hclear) h htarget hk
    fun q _ hq hq' => hnext.more hw hq hq'

/-- The operand was read with its words, and its last word was the last token. -/
theorem Taken.reads {q : Pass} (h : Taken p e ws q) (hw : p.words = e.words ++ ws) :
    (∃ u, wordsOf u = e.words ∧ p.Compiles u e.postorder q) ∧ q.previous = e.lastWord.1 := by
  obtain ⟨u, -, hu, hq⟩ := h
  rw [← hq] at hw
  have hmap := hu.map_word hw
  exact ⟨⟨u, Pass.wordsOf_of_map hmap, hu⟩, hu.previous_of_words hmap⟩

/-- What is nested further on is compiled as well. -/
theorem Nests.later (hn : Nests n sub p₀) (h : Partway p₀ array fs x t p) : Nests n sub p :=
  ⟨h.inOrder hn.inOrder, h.strictness_eq.trans hn.lenient, h.length_le.trans hn.short, hn.sub⟩

/-- What a step can come before. -/
theorem stepTarget_complete (hn : Nests n sub p) (hanswer : ctx.answer = false)
    (htarget : e.isTarget = true) (he : e.wellFormed false = true)
    (hw : p.words = e.words ++ ws) (hfollow : canFollow ws = true) {span : Span} :
    Ensures (stepTarget sub ctx span) p (fun _ q => Taken p e ws q) OnlyShort := by
  have hp := hn.inOrder
  have hclear := isClear_of_canFollow hfollow
  simp only [stepTarget, ensures_bind, ensures_kind]
  cases e with
  | var name =>
    have hk : p.token.kind = .name := Pass.kind_of_words hw
    cases ws with
    | nil => simp [canFollow] at hfollow
    | cons w ws =>
      simp only [canFollow, Bool.and_eq_true, bne_iff_ne] at hfollow
      simp only [hk, ensures_bind, ensures_pure]
      exact (var_complete hp hw hfollow.1.1 hfollow.1.2 hfollow.2).imp fun _ _ h => h.2
  | elem name index =>
    have hk : p.token.kind = .name := Pass.kind_of_words hw
    simp only [hk, ensures_bind, ensures_pure]
    have hindex : index.wellFormed false = true := he
    have hanswer : { ctx with wholeArray := false }.answer = false := hanswer
    exact (elem_complete hn hanswer hindex hw hclear).imp fun _ _ h => h.2
  | setting s =>
    have hk : p.token.kind = .keyword (.setting s) := Pass.kind_of_words hw
    cases s with
    | scale =>
      simp only [hk, ensures_bind]
      refine advance_complete (.start hp hw) (by simp) hclear fun q hq _ => ?_
      have hparen : ¬ q.token.kind = .symbol .leftParen := by
        intro hparen
        cases ws with
        | nil => simp [canFollow] at hfollow
        | cons w ws =>
          rw [hq.kind] at hparen
          simp [canFollow, hparen] at hfollow
      simp only [ensures_isAt, ensures_ite, beq_iff_eq, hparen, if_false]
      exact emit_complete hq rfl fun r hr => ⟨_, hr⟩
    | _ =>
      simp only [hk, ensures_bind]
      exact setting_step hp hw hclear fun _ => id
  | _ => simp [Expr.isTarget] at htarget

theorem preStep_complete (hn : Nests n sub p₀) (hanswer : ctx.answer = false)
    (h : Partway p₀ array fs none t p) (htarget : e.isTarget = true)
    (he : e.wellFormed false = true) (hprevious : p.Unblocked)
    (hw : p.words = (Expr.preStep up e).words ++ ws) (hfollow : canFollow ws = true)
    (hnext : Continues sub Q p₀ array ctx fs (some (.preStep up e)) e.lastWord ws) :
    Reaches sub p₀.operators.length Q ctx t p := by
  obtain ⟨hp, hlenient, hshort, hsub⟩ := hn.later h
  have hk : p.token.kind = .symbol (Expr.stepSymbol up) := Pass.kind_of_words hw
  have hstepped : t.stepped = false := by simp [h.stepped]
  obtain ⟨hinc, hdec, hparen⟩ := not_blocked (hprevious up hk)
  refine reaches_of_turn (turn_step hk ?_)
  simp only [stepBy, ensures_bind, ensures_get, ensures_ite, h.complete_eq, hstepped,
    hinc, hdec, hparen, decide_false, Bool.or_self, Bool.false_eq_true, if_false,
    Option.isSome_none, ensures_pure]
  refine advance_complete (.start hp hw) (by simp) (by simp) fun q hq _ => ?_
  have hlength := hq.compiles.length_eq
  refine (stepTarget_complete ⟨hq.compiles.inOrder hp, hq.compiles.strictness_eq.trans hlenient,
    by omega, hsub⟩ hanswer htarget he hq.words hfollow).imp ?_
  rintro - r ⟨v, -, hv, hr⟩
  refine emit_complete ⟨hp, hq.compiles.trans hv, hr⟩ rfl fun r₁ hr₁ => ?_
  refine emit_complete hr₁ rfl fun r₂ hr₂ => ?_
  have hcode : [] ++ e.postorder ++ [.plain .one] ++
      [.plain (.assign (some (if up then .plus else .minus)))] =
      (Expr.preStep up e).postorder := by
    simp [Expr.postorder, Expr.stepArith]
  have htaken : Taken p (.preStep up e) ws r₂ := ⟨_, hcode ▸ hr₂⟩
  obtain ⟨⟨u, hu, hc⟩, hlast⟩ := htaken.reads hw
  have hreads : p.Reads false (.preStep up e) r₂ :=
    ⟨by simp [Expr.wellFormed, htarget, he], by simp [hlenient], u, hu, hc⟩
  refine ⟨hreads.length_lt, hnext _ r₂ (h.preStep he htarget hc hu ?_) hr₂.words (by simp [hlast])⟩
  simp [← h.strictness_eq, hlenient]

/-- The turn at an operand. -/
theorem turn_operand (hlenient : p.strictness = .lenient) (hleaf : e.isLeaf = true)
    (hw : p.words = e.words ++ ws) (hcomplete : t.complete = false)
    (h : Ensures (operand sub ctx) p (fun b q => R (.more (t.operand b)) q) OnlyShort) :
    Ensures (turn sub base ctx t) p R OnlyShort := by
  obtain ⟨w, ws', hwords, hkind⟩ := Expr.exists_words_of_isLeaf hleaf
  rw [hwords] at hw
  have hk : p.token.kind = w.1 := Pass.kind_of_words hw
  simp only [turn, ensures_bind, ensures_kind]
  rcases hkind with hkind | hkind | hkind | ⟨k, hkind, hoperand⟩
  · simpa only [hk, hkind, ensures_bind, ensures_here, report, ensures_get, hlenient, hcomplete,
      Bool.false_eq_true, if_false, ensures_pure] using h
  · simpa only [hk, hkind, Token.Kind.inExpression, hcomplete, Bool.false_eq_true, if_false,
      if_true, ensures_bind, ensures_pure] using h
  · simpa only [hk, hkind, Token.Kind.inExpression, hcomplete, Bool.false_eq_true, if_false,
      if_true, ensures_bind, ensures_pure] using h
  · simpa only [hk, hkind, Token.Kind.inExpression, hoperand, hcomplete, Bool.false_eq_true,
      if_false, if_true, ensures_bind, ensures_pure] using h

/-- An operand. Only the first one can be a whole array. -/
theorem leaf_complete (hn : Nests n sub p₀) (hanswer : ctx.answer = false)
    (h : Partway p₀ array fs none t p) (hleaf : e.isLeaf = true) {allowed : Bool}
    (he : e.wellFormed allowed = true)
    (hallowed : allowed = true → ctx.wholeArray = true ∧ array = true ∧ fs = [])
    (hw : p.words = e.words ++ w :: ws) (hfollow : canFollow (w :: ws) = true)
    (hend : e.isWhole = true → w.1 ∈ Ends.argument)
    (hnext : Continues sub Q p₀ array ctx fs (some e) e.lastWord (w :: ws)) :
    Reaches sub p₀.operators.length Q ctx t p := by
  have hctx : e.wellFormed ctx.wholeArray = true := by
    cases allowed with
    | true => exact (hallowed rfl).1 ▸ he
    | false => exact Expr.wellFormed_of_false he _
  have hfollow' := hfollow
  simp only [canFollow, Bool.and_eq_true, bne_iff_ne] at hfollow'
  obtain ⟨⟨herror, hparen⟩, hbracket⟩ := hfollow'
  have hlenient := (hn.later h).lenient
  refine reaches_of_turn (turn_operand hlenient hleaf hw (by simp [h.complete_eq]) ?_)
  refine (operand_complete (hn.later h) hanswer hleaf hctx hw herror hparen hbracket hend).imp ?_
  rintro b q ⟨rfl, htaken⟩
  obtain ⟨⟨u, hu, hc⟩, hlast⟩ := htaken.reads hw
  obtain ⟨_, hq⟩ := htaken
  have hreads : p.ReadsLeaf allowed e q := by
    refine ⟨⟨he, by simp [hlenient], u, hu, hc⟩, hleaf, fun hwhole => ?_⟩
    rw [hq.kind]
    simpa [Ends.argument, or_comm] using hend hwhole
  exact ⟨hreads.length_lt,
    hnext _ q (h.operand hreads fun ha => (hallowed ha).2) hq.words hlast⟩

/-! ## Operators -/

theorem prefixed_complete (hp₀ : p₀.InOrder) (h : Partway p₀ array fs none t p)
    (hop : op.isUnary = true) (hw : p.words = op.word :: ws) (hclear : isClear ws = true)
    (hnext : Continues sub Q p₀ array ctx (.prefixed op :: fs) none op.word ws) :
    Reaches sub p₀.operators.length Q ctx t p := by
  have hmove := movesOn_of_words hw hclear
  refine reaches_of_turn ?_
  cases op with
  | neg =>
    have hk : p.token.kind = .symbol (.arith .minus) := Pass.kind_of_words hw
    simp only [turn, ensures_bind, ensures_kind, hk, h.complete_eq, Option.isSome_none,
      Bool.false_eq_true, if_false, ensures_pure]
    refine push_step hp₀ hmove h (by simp [hk]) fun q hq ho => ?_
    exact hnext.more hw hq (h.prefixed hop hq (by rw [wordsOf_symbol hk]; rfl) ho)
  | not =>
    have hk : p.token.kind = .symbol .bang := Pass.kind_of_words hw
    simp only [turn, ensures_bind, ensures_kind, hk, Operator.ofSymbol?, applyOperator,
      h.complete_eq, Option.isSome_none, Operator.isAssignment, Operator.isUnary,
      Operator.isRelational, Bool.false_and, Bool.false_eq_true, if_false, ensures_pure,
      Bool.true_eq_false, beq_iff_eq, ensures_get]
    exact awaitPrefix_step (Q := fun t' q => q.upcoming.length < p.upcoming.length ∧
        Reaches sub p₀.operators.length Q { ctx with wholeArray := false } t' q) hp₀ hmove h hop
      (by rw [wordsOf_symbol hk]; rfl) (by simp [hk]) fun q _ hq hq' => hnext.more hw hq hq'
  | _ => simp [Operator.isUnary] at hop

/-- The turn at an operator between its operands. -/
theorem turn_binary (hop : op.isBinary = true) (hk : p.token.kind = op.word.1)
    (hcomplete : t.complete = true)
    (hassign : op.isAssignment = true →
      t.assignable = true ∧ bindsTighter base p.operators = false)
    (h : ∀ t' : Tally, t.Counts op t' →
      Ensures (awaitOperand base op t') p
        (fun t' q => Ensures advance q (fun _ q => R (.more t'.operator) q) E) E) :
    Ensures (turn sub base ctx t) p R E := by
  have hunary : op.isUnary = false := by
    simp only [Operator.isBinary, Bool.and_eq_true, Bool.not_eq_true'] at hop
    exact hop.1
  have happly : Ensures (applyOperator base op t) p (fun t' q => R (.more t') q) E := by
    have hallowed : ¬ (op.isAssignment && (!t.assignable || bindsTighter base p.operators)) := by
      cases ha : op.isAssignment with
      | false => simp
      | true => simp [hassign ha]
    simp only [applyOperator, ensures_bind, ensures_get, ensures_ite, hallowed, hunary, hcomplete,
      Bool.false_eq_true, beq_iff_eq, if_false, ensures_pure]
    refine h _ ⟨?_, ?_, ?_⟩ <;> split <;> rfl
  simp only [turn, ensures_bind, ensures_kind, hk]
  cases op with
  | arith op =>
    cases op with
    | minus => simpa only [Operator.word, Symbol.word_fst, hcomplete, if_true, ensures_bind,
        ensures_pure] using h t ⟨rfl, rfl, rfl⟩
    | _ => simpa only [Operator.word, Symbol.word_fst, Operator.ofSymbol?, ensures_bind,
        ensures_pure] using happly
  | neg => simp [Operator.isUnary] at hunary
  | not => simp [Operator.isUnary] at hunary
  | paren => simp [Operator.isBinary] at hop
  | _ => simpa only [Operator.word, Symbol.word_fst, Operator.ofSymbol?, ensures_bind,
      ensures_pure] using happly

/-- An operator behind the whole of its left operand, of which the operators on the right edge
still wait. -/
theorem binary_complete (hp₀ : p₀.InOrder) {left : Expr}
    (h : Partway p₀ array (left.edge ++ fs) (some left.tip) t p)
    (hleft : left.wellFormed false = true) (hop : op.isBinary = true)
    (htakes : op.takesLeft left.level = true)
    (hassign : op.isAssignment = true → left.isAssignable = true)
    (hfits : ∀ f ∈ fs.head?, f.op.takesRight op.precedence = true)
    (hw : p.words = op.word :: ws) (hclear : isClear ws = true)
    (hnext : Continues sub Q p₀ array ctx (.binary left op :: fs) none op.word ws) :
    Reaches sub p₀.operators.length Q ctx t p := by
  have hk : p.token.kind = op.word.1 := Pass.kind_of_words hw
  -- what can be assigned to has no operator on its edge
  have hedge (ha : op.isAssignment = true) : left.edge = [] ∧ left.tip = left :=
    Expr.edge_of_level (Expr.level_of_isAssignable (hassign ha))
  have htip : left.tip.wellFormed false = true :=
    h.wellFormed_false (by rw [hk]; cases op <;> simp [Operator.word])
      (by rw [hk]; cases op <;> simp [Operator.word])
  refine reaches_of_turn (turn_binary hop hk (by simp [h.complete_eq]) ?_ ?_)
  · intro ha
    obtain ⟨hnil, htip'⟩ := hedge ha
    refine ⟨by simp [h.assignable, htip', hassign ha], ?_⟩
    rw [bindsTighter, h.above_eq, hnil, List.nil_append, List.head?_map]
    cases hf : fs.head? with
    | none => rfl
    | some f =>
      have hfit := hfits f hf
      rw [(Operator.isAssignment_iff op).1 ha, Operator.takesRight_iff] at hfit
      have hprec : ¬ f.op.precedence < (Operator.assign none).precedence := by
        change ¬ f.op.precedence < 8
        omega
      simp [hprec]
  · intro t' ht'
    have hgs : ∀ g ∈ left.edge, g.op.appliesBefore op = true := by
      intro g hg
      rw [Operator.appliesBefore_iff]
      have hlevel := left.level_le_of_mem_edge hleft g hg
      refine ⟨fun hparen => ?_, Operator.takesLeft_of_le htakes hlevel⟩
      have hwf := h.standing.frames g (List.mem_append_left _ hg)
      have hg' := (Frame.op_eq_paren_iff hwf).1 hparen
      simp [left.isParen_of_mem_edge g hg] at hg'
    refine awaitBinary_step (Q := fun t' q => q.upcoming.length < p.upcoming.length ∧
        Reaches sub p₀.operators.length Q { ctx with wholeArray := false } t' q) hp₀
      (movesOn_of_words hw hclear) h htip hop hgs
      (fun f hf => Operator.not_appliesBefore_of_takesRight (hfits f hf)) ?_ ht' ?_ ?_ ?_
    · intro ha
      obtain ⟨hnil, htip'⟩ := hedge ha
      exact ⟨hnil, by rw [htip', hassign ha]⟩
    · have hword : p.token.word = op.word := (List.cons.inj hw).1
      have hne : p.token.kind ≠ .newline := by
        rw [hk]
        cases op <;> simp [Operator.word]
      simp [wordsOf, hne, hword]
    · rw [hk]
      cases op <;> simp [Operator.word]
    · intro t'' q code hq hq'
      rw [Expr.plugAll_edge] at hq'
      exact hnext.more hw hq hq'

/-! ## Every expression of the grammar -/

/-- Wherever `e` can stand in an expression, reading its words leads behind it: the operators on
its right edge wait, and its last operand has been read. -/
def ReadsOver (sub : Sub) (Q : Option Tally → Pass → Prop) (p₀ : Pass) (array : Bool) (e : Expr) :
    Prop :=
  ∀ ctx fs t p ws, ctx.answer = false → Partway p₀ array fs none t p →
    (∀ f ∈ fs.head?, f.op.takesRight e.level = true) → p.Unblocked →
    p.words = e.words ++ ws → canFollow ws = true →
    Continues sub Q p₀ array ctx (e.edge ++ fs) (some e.tip) e.lastWord ws →
    Reaches sub p₀.operators.length Q ctx t p

theorem readsOver_leaf (hn : Nests n sub p₀) (hleaf : e.isLeaf = true)
    (he : e.wellFormed false = true) : ReadsOver sub Q p₀ array e := by
  intro ctx fs t p ws hanswer h _ _ hw hfollow hnext
  obtain ⟨hedge, htip⟩ := Expr.edge_of_level (Expr.level_of_isLeaf hleaf)
  rw [hedge, htip] at hnext
  cases ws with
  | nil => simp [canFollow] at hfollow
  | cons w ws =>
    exact leaf_complete hn hanswer h hleaf he (by simp) hw hfollow
      (by simp [Expr.isWhole_of_wellFormed he]) hnext

theorem readsOver_preStep (hn : Nests n sub p₀) (htarget : e.isTarget = true)
    (he : e.wellFormed false = true) : ReadsOver sub Q p₀ array (.preStep up e) := by
  intro ctx fs t p ws hanswer h _ hprevious hw hfollow hnext
  rw [Expr.lastWord_preStep] at hnext
  exact preStep_complete hn hanswer h htarget he hprevious hw hfollow hnext

section

variable (hp₀ : p₀.InOrder)
include hp₀

theorem readsOver_postStep (htarget : e.isTarget = true) (ih : ReadsOver sub Q p₀ array e) :
    ReadsOver sub Q p₀ array (.postStep e up) := by
  intro ctx fs t p ws hanswer h hfits hprevious hw hfollow hnext
  have hlevel : e.level = 0 := by cases e <;> simp_all [Expr.isTarget, Expr.level]
  obtain ⟨hedge, htip⟩ := Expr.edge_of_level hlevel
  simp only [Expr.words, List.append_assoc, List.cons_append, List.nil_append] at hw
  refine ih ctx fs t p _ hanswer h (by simp [hlevel]) hprevious hw
    (canFollow_symbol (by cases up <;> simp [Expr.stepSymbol])
      (by cases up <;> simp [Expr.stepSymbol]) _) ?_
  rw [hedge, htip]
  intro t' q h' hq hprevious'
  refine postStep_complete hp₀ h' htarget ?_ hq (isClear_of_canFollow hfollow) ?_
  · rw [hprevious']
    cases e <;> simp_all [Expr.isTarget, Expr.lastWord, Expr.words, List.getLast_cons,
      Token.Kind.blocksStep]
  · simpa [Expr.lastWord, Expr.words, Expr.edge, Expr.tip] using hnext.later

theorem readsOver_trunc (hlevel : e.level = 0) (ih : ReadsOver sub Q p₀ array e) :
    ReadsOver sub Q p₀ array (.trunc e) := by
  intro ctx fs t p ws hanswer h hfits hprevious hw hfollow hnext
  obtain ⟨hedge, htip⟩ := Expr.edge_of_level hlevel
  simp only [Expr.words, List.append_assoc, List.cons_append, List.nil_append] at hw
  refine ih ctx fs t p _ hanswer h (by simp [hlevel]) hprevious hw
    (canFollow_symbol (by simp) (by simp) _) ?_
  rw [hedge, htip]
  intro t' q h' hq _
  refine trunc_complete hp₀ h' hq (isClear_of_canFollow hfollow) ?_
  simpa [Expr.lastWord, Expr.words, Expr.edge, Expr.tip] using hnext.later

theorem readsOver_paren (he : e.wellFormed false = true) (ih : ReadsOver sub Q p₀ array e) :
    ReadsOver sub Q p₀ array (.paren e) := by
  intro ctx fs t p ws hanswer h _ _ hw hfollow hnext
  simp only [Expr.words, List.append_assoc, List.cons_append, List.nil_append] at hw
  refine openParen_complete hp₀ h hw (by simp) fun t₁ q₁ h₁ hq₁ hprevious₁ => ?_
  refine ih _ _ t₁ q₁ _ hanswer h₁ ?_ (.of_previous (by rw [hprevious₁]; rfl)) hq₁
    (canFollow_symbol (by simp) (by simp) _) fun t₂ q₂ h₂ hq₂ hprevious₂ => ?_
  · rintro f ⟨⟩
    rw [Frame.op, Operator.takesRight_iff]
    exact .inl (Nat.lt_of_le_of_lt (Expr.level_le he) (by decide))
  · refine closeParen_complete hp₀ h₂ e.isParen_of_mem_edge (hprevious₂ ▸ e.lastWord_ne) hq₂
      (isClear_of_canFollow hfollow) ?_
    rw [Expr.plugAll_edge]
    simpa [Expr.lastWord, Expr.words, Expr.edge, Expr.tip, List.getLast_cons] using hnext.later

theorem readsOver_prefixed (hop : op.isUnary = true) (htakes : op.takesRight e.level = true)
    (ih : ReadsOver sub Q p₀ array e) : ReadsOver sub Q p₀ array (.prefixed op e) := by
  intro ctx fs t p ws hanswer h _ _ hw hfollow hnext
  refine prefixed_complete hp₀ h hop hw (by simp) fun t₁ q₁ h₁ hq₁ hprevious₁ => ?_
  refine ih _ _ t₁ q₁ ws hanswer h₁ ?_ ?_ hq₁ hfollow ?_
  · rintro f ⟨⟩
    exact htakes
  · refine .of_previous ?_
    rw [hprevious₁]
    cases op <;> rfl
  · simpa [Expr.edge, Expr.tip] using hnext.later

theorem readsOver_binary {left right : Expr}
    (he : (Expr.binary op left right).wellFormed false = true) (ihl : ReadsOver sub Q p₀ array left)
    (ihr : ReadsOver sub Q p₀ array right) : ReadsOver sub Q p₀ array (.binary op left right) := by
  intro ctx fs t p ws hanswer h hfits hprevious hw hfollow hnext
  simp only [Expr.wellFormed, Bool.and_eq_true, Bool.or_eq_true, Bool.not_eq_true'] at he
  obtain ⟨⟨⟨⟨⟨hop, hleft⟩, hright⟩, hassign⟩, hwfl⟩, hwfr⟩ := he
  simp only [Expr.words, List.append_assoc, List.cons_append] at hw
  refine ihl ctx fs t p _ hanswer h ?_ hprevious hw ?_ fun t₁ q₁ h₁ hq₁ _ => ?_
  · exact fun f hf => Operator.takesRight_of_le (hfits f hf) (Operator.le_of_takesLeft hleft)
  · exact canFollow_operator hop _
  · refine binary_complete hp₀ h₁ hwfl hop hleft ?_ hfits hq₁ (by simp)
      fun t₂ q₂ h₂ hq₂ hprevious₂ => ?_
    · intro ha
      exact hassign.resolve_left (by simp [ha])
    · refine ihr _ _ t₂ q₂ ws hanswer h₂ ?_ ?_ hq₂ hfollow ?_
      · rintro f ⟨⟩
        exact hright
      · refine .of_previous ?_
        rw [hprevious₂]
        cases op <;> rfl
      · simpa [Expr.edge, Expr.tip] using hnext.later

end

/-- **Every expression of the grammar is read**, wherever it can stand. -/
theorem readsOver_of_wellFormed (hn : Nests n sub p₀) :
    (e : Expr) → e.wellFormed false = true → ReadsOver sub Q p₀ array e
  | .preStep up e, he => by
    simp only [Expr.wellFormed, Bool.and_eq_true] at he
    exact readsOver_preStep hn he.1 he.2
  | .postStep e up, he => by
    simp only [Expr.wellFormed, Bool.and_eq_true] at he
    exact readsOver_postStep hn.inOrder he.1 (readsOver_of_wellFormed hn e he.2)
  | .trunc e, he => by
    simp only [Expr.wellFormed, Bool.and_eq_true, beq_iff_eq] at he
    exact readsOver_trunc hn.inOrder he.1 (readsOver_of_wellFormed hn e he.2)
  | .paren e, he => readsOver_paren hn.inOrder he (readsOver_of_wellFormed hn e he)
  | .prefixed op e, he => by
    simp only [Expr.wellFormed, Bool.and_eq_true] at he
    exact readsOver_prefixed hn.inOrder he.1.1 he.1.2 (readsOver_of_wellFormed hn e he.2)
  | .binary op left right, he => by
    have he' := he
    simp only [Expr.wellFormed, Bool.and_eq_true] at he'
    exact readsOver_binary hn.inOrder he (readsOver_of_wellFormed hn left he'.1.2)
      (readsOver_of_wellFormed hn right he'.2)
  | .number _, he | .string _, he | .var _, he | .elem _ _, he | .setting _, he | .whole _, he
  | .call _ _, he | .query _, he | .unary _ _, he | .scaleOf _, he | .modexp _ _ _, he
  | .divmod _ _ _, he => readsOver_leaf hn rfl he

/-! ## The end of an expression -/

/-- The turn behind the expression. -/
theorem turn_end (h : Partway p₀ array fs (some e) t p) (hfs : ∀ f ∈ fs, f.isParen = false)
    (hprevious : p.previous ≠ .symbol .leftParen) (hk : p.token.kind.endsExpression = true)
    (hR : R (.stop t) p) : Ensures (turn sub p₀.operators.length ctx t) p R E := by
  have hparens : t.parens = 0 := h.parens.trans (Partway.countP_isParen_of_not hfs)
  simp only [turn, ensures_bind, ensures_kind]
  cases hkind : p.token.kind with
  | newline | eof => exact hR
  | symbol s =>
    rw [hkind] at hk
    cases s with
    | semicolon | rightBrace | comma | rightBracket => exact hR
    | rightParen =>
      simpa only [closeParen, ensures_bind, ensures_get, ensures_ite, hprevious, h.complete_eq,
        hparens, if_false, Option.isSome_some, if_true, ensures_pure] using hR
    | _ => exact absurd hk (by simp [Token.Kind.endsExpression])
  | _ => exact absurd hk (by simp [hkind, Token.Kind.endsExpression])

/-- The end of an expression of the grammar. -/
theorem endExpression_complete (hp₀ : p₀.InOrder) (hlenient : p₀.strictness = .lenient)
    (h : Partway p₀ array e.edge (some e.tip) t p) (hw : p.words = w :: ws) (hend : w.1 ∈ ends)
    (hk : p₀.token.kind ≠ .newline) :
    Ensures (endExpression p₀.operators.length ctx ends (p₀.token.kind == .symbol .leftParen) t) p
      (fun _ q => (∃ u, p₀.Compiles u (e.settled ctx) q) ∧ q.words = w :: ws) OnlyShort := by
  simp only [endExpression, ensures_bind]
  refine drain_step hp₀ h e.isParen_of_mem_edge
    fun t' u q hwords hu hr hone hassigned hstepped _ => ?_
  rw [e.plugAll_edge] at hwords hu hassigned hstepped
  have hfirst : (p₀.token.kind == .symbol .leftParen) = e.startsWithParen :=
    (startsWithParen_eq hu.rest_eq hwords hk).symm
  have hkind : q.token.kind = w.1 :=
    Pass.kind_of_words ((Pass.words_eq_of_rest_eq hr).trans hw)
  have hcontains : ends.contains q.token.kind = true := by
    rw [hkind, List.contains_iff_mem]
    exact hend
  simp only [ensures_ite, ensures_bind, ensures_kind, ensures_atDelimiter, ensures_pure, hone,
    hcontains, hfirst, Bool.true_or, if_true]
  refine reportRelations_step hp₀ hu (fun r hr' hrest _ => ?_) ?_
  · refine settleValue_step hp₀ hr' hassigned hstepped fun s hs hrest' => ?_
    have hwords' : s.words = w :: ws :=
      (Pass.words_eq_of_rest_eq (hrest'.trans (hrest.trans hr))).trans hw
    split
    · exact ⟨⟨u, hs⟩, hwords'⟩
    · next hnewline =>
      refine ensures_skipWhile_of_not ?_ ⟨⟨u, hs⟩, hwords'⟩
      rw [Pass.kind_of_words hwords']
      have hne : w.1 ≠ .newline := by
        rintro heq
        rw [List.contains_iff_mem, ← heq] at hnewline
        exact hnewline hend
      simpa using hne
  · rw [hu.strictness_eq, hlenient]
    simp

section

variable (hanswer : ctx.answer = false) (he : e.wellFormed ctx.wholeArray = true)
  (hprevious : p.Unblocked) (hw : p.words = e.words ++ w :: ws)
  (hend : w.1.endsExpression = true) (hwhole : e.isWhole = true → w.1 ∈ Ends.argument)
include hanswer he hprevious hw hend hwhole

/-- **The tokens of an expression of the grammar** are read up to its end. -/
theorem turns_complete (hn : Nests n sub p) :
    Ensures (turns sub p.operators.length ctx) p (fun r q => ∃ t, r = some t ∧
      Partway p ctx.wholeArray e.edge (some e.tip) t q ∧ q.words = w :: ws) OnlyShort := by
  have hfollow := canFollow_end hend ws
  have hstop : Continues sub (fun r q => ∃ t, r = some t ∧
      Partway p ctx.wholeArray e.edge (some e.tip) t q ∧ q.words = w :: ws) p ctx.wholeArray ctx
      e.edge (some e.tip) e.lastWord (w :: ws) := by
    intro t q h hq hlast
    refine reaches_of_turn (turn_end h e.isParen_of_mem_edge (hlast ▸ e.lastWord_ne) ?_ ?_)
    · rw [Pass.kind_of_words hq, hend]
    · exact ⟨t, rfl, h, hq⟩
  refine Reaches.turns ?_
  cases hcase : e.isWhole with
  | true =>
    have hleaf : e.isLeaf = true := by cases e <;> simp_all [Expr.isWhole, Expr.isLeaf]
    obtain ⟨hedge, htip⟩ := Expr.edge_of_level (Expr.level_of_isLeaf hleaf)
    exact leaf_complete hn hanswer (.start hn.inOrder _) hleaf he (fun h => ⟨h, h, rfl⟩) hw hfollow
      hwhole (by simpa only [hedge, htip] using hstop)
  | false =>
    exact readsOver_of_wellFormed hn e (Expr.wellFormed_of_not_isWhole he hcase) ctx [] {} p
      (w :: ws) hanswer (.start hn.inOrder _) (by simp) hprevious hw hfollow (by simpa using hstop)

/-- **An expression of the grammar is compiled**, where nested ones are. -/
theorem expressionWith_complete (hn : Nests n sub p) (hends : w.1 ∈ ends) :
    Ensures (expressionWith sub ctx ends) p
      (fun r q => r = .value ∧ (∃ u, p.Compiles u (e.settled ctx) q) ∧ q.words = w :: ws)
      OnlyShort := by
  have hk : p.token.kind ≠ .newline := Pass.kind_ne_newline hw
  simp only [expressionWith, ensures_bind, ensures_get, hanswer, Bool.false_eq_true, if_false,
    ensures_isAt]
  refine ensures_skipWhile_of_not (by simpa using hk) ?_
  refine (turns_complete hanswer he hprevious hw hend hwhole hn).imp ?_
  rintro _ q ⟨t, rfl, h, hq⟩
  simp only [ensures_bind, ensures_pure]
  exact (endExpression_complete hn.inOrder hn.lenient h hq hends hk).imp fun _ _ h => ⟨trivial, h⟩

/-- **Expressions of the grammar that nest** are compiled, at most as deep as there are tokens. -/
theorem expressionAt_complete {γ : Type} (bound : List γ) (hp : p.InOrder)
    (hlenient : p.strictness = .lenient) (hn : p.upcoming.length ≤ bound.length)
    (hends : w.1 ∈ ends) : Ensures (expressionAt bound ctx ends) p
      (fun r q => r = .value ∧ (∃ u, p.Compiles u (e.settled ctx) q) ∧ q.words = w :: ws)
      OnlyShort := by
  induction bound generalizing p ctx ends e w ws with
  | nil =>
    rw [expressionAt]
    refine expressionWith_complete hanswer he hprevious hw hend hwhole (n := 0)
      ⟨hp, hlenient, hn, ?_⟩ hends
    intro _ _ q _ _ _ _ _ _ hlt
    exact absurd hlt (Nat.not_lt_zero _)
  | cons b bound ih =>
    rw [expressionAt]
    refine expressionWith_complete hanswer he hprevious hw hend hwhole (n := bound.length + 1)
      ⟨hp, hlenient, hn, ?_⟩ hends
    intro ctx' ends' q e' w' ws' hq hlenient' hprevious' hlt hneeds hprinted hanswer' hends' he' hw'
      hmem hwhole'
    have hall : ends' ∈ Ends.all := by
      simp only [List.mem_cons, List.not_mem_nil, or_false] at hends'
      rcases hends' with rfl | rfl <;> decide
    have hend' : w'.1.endsExpression = true := Ends.endsExpression hall hmem
    simp only [ensures_bind]
    refine (ih hanswer' he' (.of_previous hprevious') hw' hend' hwhole' hq hlenient'
      (Nat.le_of_lt_succ hlt) hmem).imp ?_
    rintro _ r ⟨rfl, ⟨u, hu⟩, hr⟩
    have hcode : e'.settled ctx' = e'.postorder := by simp [Expr.settled, hneeds, hprinted]
    exact ⟨⟨u, hcode ▸ hu⟩, hr⟩

/-- **An expression of the grammar is compiled.** -/
theorem expression_complete (hp : p.InOrder) (hlenient : p.strictness = .lenient)
    (hends : w.1 ∈ ends) : Ensures (expression ctx ends) p
      (fun _ q => (∃ u, p.Compiles u (e.settled ctx) q) ∧ q.words = w :: ws) OnlyShort := by
  simp only [expression, expressionOrEmpty, ensures_bind, ensures_get]
  refine (expressionAt_complete hanswer he hprevious hw hend hwhole p.upcoming hp hlenient
    (Nat.le_refl _) hends).imp ?_
  rintro _ q ⟨rfl, hq⟩
  exact hq

end

end Compile

end DeskCalc
