import DeskCalc.Proofs.Operand.Sound
import DeskCalc.Proofs.Expression.End

/-!
# Expressions that are compiled are expressions of the grammar

Whatever the tokens are, one turn leads from one place in an expression of the grammar to the next
(`turn_sound`), and so do all turns (`turns_sound`). An expression that is compiled is therefore one
of the grammar, and the code that was written is its code in the context (`expression_sound`). All
else is refused.
-/

namespace DeskCalc.Compile

variable {p₀ p : Pass} {array : Bool} {fs : List Frame} {x : Option Expr} {t : Tally}
  {op : Operator} {sub : Sub} {ctx : Context} {n : Nat} {ends : Ends} {code : List Symbolic}
  {u : List Token}

/-! ## One token -/

/-- The expression goes on from `p` to `q`: something was read. -/
def GoesOn (p₀ : Pass) (array : Bool) (p : Pass) (t : Tally) (q : Pass) : Prop :=
  (∃ fs x, Partway p₀ array fs x t q) ∧ q.upcoming.length < p.upcoming.length

theorem Partway.goesOn {q : Pass} {k : Token} (hq : p.Emits [k] code q)
    (h : Partway p₀ array fs x t q) : GoesOn p₀ array p t q := by
  obtain ⟨is, his, -⟩ := hq
  have := his.length_eq
  simp only [List.length_singleton] at this
  exact ⟨⟨fs, x, h⟩, by omega⟩

/-- What a step can come before. -/
theorem stepTarget_sound (hsub : SoundSub n sub) (hp₀ : p₀.InOrder) (hn : p₀.upcoming.length ≤ n)
    (h : p₀.Compiles u [] p) {span : Span} : Ensures (stepTarget sub ctx span) p
      (fun _ q => ∃ e : Expr, e.isTarget = true ∧ e.wellFormed false = true ∧
        (p₀.strictness = .strict → comparisons e.words = 0) ∧
        ∃ v, wordsOf v = wordsOf u ++ e.words ∧ p₀.Compiles v e.postorder q) p₀.Refused := by
  have hp := h.inOrder hp₀
  have hn' : p.upcoming.length ≤ n := by
    have := h.length_eq
    omega
  simp only [stepTarget, ensures_bind, ensures_kind]
  split
  · next hk =>
    simp only [ensures_bind, ensures_pure]
    refine (named_sound hsub hp hn' hk).mono ?_ fun _ _ he => h.refused he
    rintro b q ⟨e, he, -, hcalls⟩
    obtain ⟨v, hv, hc⟩ := he.compiles
    have hwf : e.wellFormed false = true := he.wellFormed
    have htarget : e.isTarget = true :=
      (hcalls rfl).resolve_right (by simp [Expr.isWhole_of_wellFormed hwf])
    exact ⟨e, htarget, hwf, h.strictness_eq ▸ he.spare, u ++ v, by simp [hv], h.trans hc⟩
  · next hk =>
    simp only [ensures_bind]
    refine advance_sound hp₀ h (by simp [hk]) fun q hq _ => ?_
    simp only [ensures_isAt, ensures_ite, beq_iff_eq]
    split
    · exact refuse_sound hp₀ hq
    · refine emit_step hp₀ hq rfl fun r hr _ => ?_
      exact ⟨.setting .scale, rfl, rfl, fun _ => rfl, _,
        by simp [wordsOf_keyword hk, Expr.words], hr⟩
  · next s _ hk =>
    simp only [ensures_bind]
    refine emit_step hp₀ h rfl fun q hq hr => ?_
    have ht : q.token = p.token := (List.cons.inj hr).1
    refine advance_sound hp₀ hq (by simp [ht, hk]) fun r hr _ => ?_
    exact ⟨.setting s, rfl, rfl, fun _ => rfl, _, by simp [ht, wordsOf_keyword hk, Expr.words], hr⟩
  · exact refuse_sound hp₀ h

theorem stepBy_sound (hsub : SoundSub n sub) (hp₀ : p₀.InOrder) (hn : p.upcoming.length ≤ n)
    (h : Partway p₀ array fs x t p) (up : Bool)
    (hk : p.token.kind = .symbol (Expr.stepSymbol up)) :
    Ensures (stepBy sub ctx up t) p (GoesOn p₀ array p) p.Refused := by
  have hp := h.inOrder hp₀
  simp only [stepBy, ensures_bind, ensures_get, ensures_ite, Bool.or_eq_true, decide_eq_true_eq]
  split
  · exact refuse_sound hp (.refl hp)
  · next hblocked =>
    simp only [not_or] at hblocked
    obtain ⟨-, hparen⟩ := hblocked
    rw [h.complete_eq]
    cases x with
    | some e =>
      rw [if_pos Option.isSome_some]
      split
      · next hassignable =>
        have htarget : e.isTarget = true := by
          rw [h.assignable] at hassignable
          cases e with
          | paren e => exact absurd (h.previous e rfl) hparen
          | _ => exact hassignable
        exact postStep_step hp₀ (movesOn_refused p) h htarget hk fun q _ hq hq' =>
          Partway.goesOn hq hq'
      · exact refuse_sound hp (.refl hp)
    | none =>
      rw [if_neg (by simp)]
      refine advance_sound hp (.refl hp) (by simp [hk]) fun q hq _ => ?_
      refine (stepTarget_sound hsub hp hn hq).imp ?_
      rintro - r ⟨e, htarget, hwf, hspare, v, hv, hr⟩
      refine emit_step hp hr rfl fun r₁ hr₁ _ => ?_
      refine emit_step hp hr₁ rfl fun r₂ hr₂ _ => ?_
      have hwords : wordsOf v = (Expr.preStep up e).words := by
        simp [hv, wordsOf_symbol hk, Expr.words]
      have hcode : e.postorder ++ [.plain .one] ++
          [.plain (.assign (some (if up then .plus else .minus)))] =
          (Expr.preStep up e).postorder := by
        simp [Expr.postorder, Expr.stepArith]
      rw [hcode] at hr₂
      have hcalm (hstrict : p.strictness = .strict) :
          comparisons (Expr.preStep up e).words = 0 := by
        cases up <;> simp [Expr.words, hspare hstrict, Expr.stepSymbol, Token.Kind.compares]
      have hreads : p.Reads false (.preStep up e) r₂ :=
        ⟨by simp [Expr.wellFormed, htarget, hwf], hcalm, v, hwords, hr₂⟩
      exact ⟨⟨_, _, h.preStep hwf htarget hr₂ hwords (h.strictness_eq ▸ hcalm)⟩, hreads.length_lt⟩

/-- Where an assignment is allowed, an operand that can be assigned to stands alone on its left. -/
theorem assignTarget_of_not {e : Expr} (h : Partway p₀ array fs (some e) t p)
    (ha : op.isAssignment = true)
    (hok : t.assignable = true ∧ bindsTighter p₀.operators.length p.operators = false) :
    (∀ f ∈ fs.head?, ¬ f.op.appliesBefore op = true) ∧ e.isAssignable = true := by
  have hprec := (Operator.isAssignment_iff op).1 ha
  refine ⟨fun f hf => ?_, by simpa [h.assignable] using hok.1⟩
  have hhead := hok.2
  rw [bindsTighter, h.above_eq, List.head?_map, hf] at hhead
  rw [Operator.appliesBefore_iff, Operator.takesLeft_iff, Operator.isLeftAssoc_iff, hprec]
  rintro ⟨hne, hlt⟩
  have hlt' : f.op.precedence < (Operator.assign none).precedence :=
    Nat.lt_of_lt_of_eq (by omega : f.op.precedence < 8) rfl
  simp [hne, hlt'] at hhead

/-- An operator between its operands. -/
theorem awaitBinary_sound {Q : Tally → Pass → Prop} (hp₀ : p₀.InOrder) {e : Expr}
    (h : Partway p₀ array fs (some e) t p)
    (hop : op.isBinary = true)
    (hassign : op.isAssignment = true → (∀ f ∈ fs.head?, ¬ f.op.appliesBefore op = true) ∧
      e.isAssignable = true)
    {t' : Tally} (ht' : t.Counts op t') {s : Symbol}
    (hk : p.token.kind = .symbol s) (hs : op.word = s.word)
    (hQ : ∀ t' q, GoesOn p₀ array p t' q → Q t' q) :
    Ensures (awaitOperand p₀.operators.length op t') p
      (fun t' q => Ensures advance q (fun _ q => Q t'.operator q) p.Refused) p.Refused := by
  have hend : s ≠ .comma ∧ s ≠ .rightParen := by
    constructor <;> rintro rfl <;> cases op <;> simp [Operator.word, Symbol.word] at hs
  have he : e.wellFormed false = true :=
    h.wellFormed_false (by simp [hk, hend.1]) (by simp [hk, hend.2])
  have hwords : wordsOf [p.token] = [op.word] := by
    rw [wordsOf_symbol hk, hs]
    rfl
  have hhs : ∀ g ∈ (fs.dropWhile (·.op.appliesBefore op)).head?,
      ¬ g.op.appliesBefore op = true := by
    intro g hg
    have := List.head?_dropWhile_not (·.op.appliesBefore op) fs
    rw [hg] at this
    simpa using this
  rw [← List.takeWhile_append_dropWhile (p := (·.op.appliesBefore op)) (l := fs)] at h
  refine awaitBinary_step hp₀ (movesOn_refused p) h he hop
    (fun g hg => List.all_eq_true.1 List.all_takeWhile g hg) hhs ?_ ht' hwords (by simp [hk])
    fun t'' q _ hq hq' => hQ t'' q (Partway.goesOn hq hq')
  intro ha
  obtain ⟨hhead, he'⟩ := hassign ha
  refine ⟨?_, he'⟩
  cases fs with
  | nil => rfl
  | cons f fs => simp [hhead f (by simp)]

theorem applyOperator_sound (hp₀ : p₀.InOrder) (h : Partway p₀ array fs x t p) {s : Symbol}
    (hk : p.token.kind = .symbol s) (hs : s ≠ .leftParen) (hop : Operator.ofSymbol? s = some op) :
    Ensures (applyOperator p₀.operators.length op t) p (GoesOn p₀ array p) p.Refused := by
  have hp := h.inOrder hp₀
  have hword : op.word = s.word := by
    cases s <;> simp_all [Operator.ofSymbol?] <;> subst hop <;> rfl
  have hne : op ≠ .paren := by
    rintro rfl
    cases s <;> simp_all [Operator.ofSymbol?]
  simp only [applyOperator, ensures_ite, ensures_bind, ensures_get, h.complete_eq]
  split
  · exact refused_refl hp _
  · next hassign =>
    split
    · exact refused_refl hp _
    · next hcomplete =>
      cases x with
      | none =>
        have hunary : op.isUnary = true := by simpa using hcomplete
        have hrel : op.isRelational = false := by
          cases op <;> simp_all [Operator.isUnary, Operator.isRelational]
        simp only [hrel, Bool.false_eq_true, if_false]
        refine awaitPrefix_step hp₀ (movesOn_refused p) h hunary ?_ (by simp [hk])
          fun q _ hq hq' => Partway.goesOn hq hq'
        rw [wordsOf_symbol hk, hword]
        rfl
      | some e =>
        have hunary : op.isUnary = false := by simpa using hcomplete
        have hbinary : op.isBinary = true := by simp [Operator.isBinary, hunary, hne]
        refine awaitBinary_sound hp₀ h hbinary (fun ha => assignTarget_of_not h ha ?_) ?_ hk hword
          fun _ _ => id
        · simpa [ha] using hassign
        · constructor <;> split <;> rfl

/-- Since `p₀` the tokens `()` were read, maybe with more parentheses before them. If none was
opened since, one was opened right before. -/
def EmptyRead (p₀ p : Pass) : Prop :=
  ∃ (u : List Token) (n : Nat),
    wordsOf u = List.replicate n (Symbol.word .leftParen) ++ [Symbol.word .rightParen] ∧
    (n = 0 → p₀.previous = .symbol .leftParen) ∧ p₀.Compiles u [] p

/-- Behind line feeds alone the token before is one of them, or the one before them. -/
theorem previous_of_wordsOf {q : Pass} {k : Token.Kind} (h : p.Emits u code q) (hu : wordsOf u = [])
    (hk : k ≠ .newline) (hq : q.previous = k) : p.previous = k := by
  obtain ⟨is, his, -⟩ := h
  rw [his.previous] at hq
  cases hlast : u.getLast? with
  | none => simpa [hlast] using hq
  | some t =>
    have hne : t.kind ≠ .newline := by
      rw [hlast] at hq
      exact fun ht => hk (hq.symm.trans ht)
    rw [wordsOf, List.map_eq_nil_iff, List.filter_eq_nil_iff] at hu
    exact absurd (List.mem_of_getLast? hlast) fun ht => hu t ht (by simpa using hne)

/-- What a turn comes to: the expression goes on, or it stopped where it was, or it was `()`. -/
def TurnSound (p₀ : Pass) (array : Bool) (p : Pass) (t : Tally) (r : Turn) (q : Pass) : Prop :=
  match r with
  | .more t' => GoesOn p₀ array p t' q
  | .stop t' => t' = t ∧ q = p
  | .empty => EmptyRead p₀ q

theorem closeParen_sound (hp₀ : p₀.InOrder) (h : Partway p₀ array fs x t p)
    (hk : p.token.kind = .symbol .rightParen) :
    Ensures (closeParen p₀.operators.length t) p (TurnSound p₀ array p t) p₀.Refused := by
  have hp := h.inOrder hp₀
  by_cases hprevious : p.previous = .symbol .leftParen
  · simp only [closeParen, ensures_bind, ensures_get, ensures_ite, h.above_eq, hprevious, if_true]
    split
    · next hempty =>
      -- only parentheses have been read, so that nothing has been written
      obtain ⟨hvalues, hall⟩ := hempty
      obtain rfl : x = none := by
        have := h.values
        cases x with
        | none => rfl
        | some e => simp [hvalues] at this
      have hparen : ∀ f ∈ fs, f = Frame.paren := fun f hf =>
        Frame.eq_paren_of_op (h.standing.frames f hf)
          (by simpa using List.all_eq_true.1 hall f.op (List.mem_map_of_mem hf))
      obtain ⟨u, hwords, hu⟩ := h.emits
      rw [frameCode_eq_nil hparen] at hu
      rw [frameWords_eq_replicate hparen, operandWords_none, List.append_nil] at hwords
      have hself : p.Emits [] [] p := (Pass.Compiles.refl hp).progress
      simp only [dropOperators, ensures_modify, ensures_pure]
      refine Ensures.mono (E := p.Refused) ?_ (fun _ _ => id) fun _ _ => h.refused
      refine advance_step hp (movesOn_refused p) (hself.setOperators _) rfl (by simp [hk])
        fun q hq ho => ?_
      refine ⟨u ++ [p.token], fs.length, ?_, fun hn => ?_, by simpa using hu.trans hq, ?_⟩
      · rw [wordsOf_append, hwords, wordsOf_symbol hk, wordsOf_nil]
      · rw [hn, List.replicate_zero] at hwords
        exact previous_of_wordsOf hu hwords (by simp) hprevious
      · simp [ho, h.operators]
    · exact h.refused (refused_refl hp _)
  · cases x with
    | none =>
      simp only [closeParen, ensures_bind, ensures_get, ensures_ite, hprevious, h.complete_eq,
        if_false, Option.isSome_none, Bool.false_eq_true]
      exact h.refused (refused_refl hp _)
    | some e =>
      by_cases hparens : t.parens = 0
      · simp only [closeParen, ensures_bind, ensures_get, ensures_ite, hprevious, h.complete_eq,
          hparens, if_false, Option.isSome_some, if_true, ensures_pure]
        exact ⟨rfl, rfl⟩
      · -- the innermost open parenthesis
        obtain ⟨gs, hs, rfl, hgs⟩ : ∃ gs hs, fs = gs ++ .paren :: hs ∧
            ∀ g ∈ gs, g.isParen = false := by
          rw [h.parens, List.countP_eq_zero] at hparens
          push Not at hparens
          obtain ⟨f, hf, hfp⟩ := hparens
          exact exists_paren_split hf hfp
        refine Ensures.mono (E := p.Refused) ?_ (fun _ _ => id) fun _ _ => h.refused
        exact closeParen_step hp₀ (movesOn_refused p) h hgs hk hprevious
          fun t' q _ hq hq' => Partway.goesOn hq hq'

section

variable (hsub : SoundSub n sub) (hp₀ : p₀.InOrder) (hn : p.upcoming.length ≤ n)
  (h : Partway p₀ array fs x t p) (hctx : ctx.wholeArray = true → array = true ∧ fs = [])
include hsub hp₀ hn h hctx

theorem operandTurn_sound : Ensures (if t.complete then refuseHere .invalidExpression
      else return Turn.more (t.operand (← operand sub ctx))) p
      (fun r q => ∃ t', r = .more t' ∧ GoesOn p₀ array p t' q) p₀.Refused := by
  have hp := h.inOrder hp₀
  cases x with
  | some e =>
    simp only [h.complete_eq, Option.isSome_some, if_true]
    exact h.refused (refused_refl hp _)
  | none =>
    simp only [h.complete_eq, Option.isSome_none, Bool.false_eq_true, if_false, ensures_bind,
      ensures_pure]
    refine (operand_sound hsub hp hn).mono ?_ fun _ _ => h.refused
    rintro b q ⟨e, he, rfl⟩
    exact ⟨_, rfl, ⟨fs, some e, h.operand he hctx⟩, he.length_lt⟩

/-- **One token.** -/
theorem turn_sound :
    Ensures (turn sub p₀.operators.length ctx t) p (TurnSound p₀ array p t) p₀.Refused := by
  have hp := h.inOrder hp₀
  simp only [turn, ensures_bind, ensures_kind]
  split
  · next hk =>
    simp only [ensures_bind, ensures_pure]
    exact (stepBy_sound hsub hp₀ hn h true hk).mono (fun _ _ => id) fun _ _ => h.refused
  · next hk =>
    simp only [ensures_bind, ensures_pure]
    exact (stepBy_sound hsub hp₀ hn h false hk).mono (fun _ _ => id) fun _ _ => h.refused
  · next hk =>
    refine Ensures.mono (E := p.Refused) ?_ (fun _ _ => id) fun _ _ => h.refused
    cases x with
    | none =>
      simp only [h.complete_eq, Option.isSome_none, Bool.false_eq_true, if_false]
      exact refused_refl hp _
    | some e =>
      simp only [h.complete_eq, Option.isSome_some, if_true, ensures_bind, ensures_pure]
      exact trunc_step hp₀ (movesOn_refused p) h hk fun q _ hq hq' => Partway.goesOn hq hq'
  · next hk =>
    refine Ensures.mono (E := p.Refused) ?_ (fun _ _ => id) fun _ _ => h.refused
    cases x with
    | none =>
      simp only [h.complete_eq, Option.isSome_none, Bool.false_eq_true, if_false, ensures_bind,
        ensures_pure]
      refine push_step hp₀ (movesOn_refused p) h (by simp [hk]) fun q hq ho => ?_
      exact Partway.goesOn hq (h.prefixed rfl hq (by rw [wordsOf_symbol hk]; rfl) ho)
    | some e =>
      simp only [h.complete_eq, Option.isSome_some, if_true, ensures_bind, ensures_pure]
      exact awaitBinary_sound hp₀ h rfl (by simp [Operator.isAssignment]) ⟨rfl, rfl, rfl⟩ hk rfl
        fun _ _ => id
  · next hk =>
    refine Ensures.mono (E := p.Refused) ?_ (fun _ _ => id) fun _ _ => h.refused
    cases x with
    | some e =>
      simp only [h.complete_eq, Option.isSome_some, if_true]
      exact refused_refl hp _
    | none =>
      simp only [h.complete_eq, Option.isSome_none, Bool.false_eq_true, if_false, ensures_bind,
        ensures_pure]
      refine push_step hp₀ (movesOn_refused p) h (by simp [hk]) fun q hq ho => ?_
      exact Partway.goesOn hq (h.openParen hq (by rw [wordsOf_symbol hk]; rfl) ho)
  · next hk => exact closeParen_sound hp₀ h hk
  · next s _ _ _ _ hparen _ hk =>
    split
    · next hop =>
      simp only [ensures_bind, ensures_pure]
      exact (applyOperator_sound hp₀ h hk hparen hop).mono (fun _ _ => id) fun _ _ => h.refused
    · exact ⟨rfl, rfl⟩
  · simp only [ensures_bind, ensures_here]
    refine ensures_report hp (fun q hq ho hr => ?_) fun _ d => h.refused (refused_refl hp d)
    have hlength : q.upcoming.length = p.upcoming.length := by
      have := hq.length_eq
      simpa using this
    refine (operandTurn_sound hsub hp₀ (hlength ▸ hn) (h.idle hq ho hr) hctx).imp ?_
    rintro _ r ⟨t', rfl, hmore, hlt⟩
    exact ⟨hmore, hlength ▸ hlt⟩
  · rw [ensures_ite]
    split
    · refine (operandTurn_sound hsub hp₀ hn h hctx).imp ?_
      rintro _ r ⟨t', rfl, hmore⟩
      exact hmore
    · exact ⟨rfl, rfl⟩

end

/-- **The tokens of an expression.** -/
theorem turns_sound (hsub : SoundSub n sub) (hp : p.InOrder) (hn : p.upcoming.length ≤ n) :
    Ensures (turns sub p.operators.length ctx) p (fun r q =>
      match r with
      | some t => ∃ fs x, Partway p ctx.wholeArray fs x t q
      | none => EmptyRead p q) p.Refused := by
  refine ensures_perToken (fun s q => q.upcoming.length ≤ n ∧ ∃ fs x,
    Partway p ctx.wholeArray fs x s.2 q ∧ (s.1.wholeArray = true → ctx.wholeArray = true ∧ fs = []))
    ?_ ⟨hn, [], none, .start hp _, fun h => ⟨h, rfl⟩⟩
  rintro ⟨c, t⟩ q ⟨hn', fs, x, h, hctx⟩
  simp only [turnStep, ensures_bind]
  refine (turn_sound hsub hp hn' h hctx).imp ?_
  rintro (t' | t' | _) r hr
  · obtain ⟨⟨fs', x', h'⟩, hlt⟩ := hr
    exact ⟨⟨by omega, fs', x', h', by simp⟩, hlt⟩
  · obtain ⟨rfl, rfl⟩ := hr
    exact ⟨fs, x, h⟩
  · exact hr

/-! ## Whole expressions -/

/-- Nothing but line feeds. -/
theorem skipNewlines_sound {Q : Unit → Pass → Prop} (hp₀ : p₀.InOrder) (h : p₀.Compiles u code p)
    (hQ : ∀ v q, wordsOf v = [] → p₀.Compiles (u ++ v) code q → q.token.kind ≠ .newline → Q () q) :
    Ensures skipNewlines p Q p₀.Refused := by
  refine (ensures_skipWhile (h.inOrder hp₀) rfl).mono ?_ fun _ _ he => h.refused he
  rintro - q ⟨v, hv, ho, hall, hk⟩
  have hq : p.Compiles v [] q := ⟨⟨[], hv, .nil⟩, ho⟩
  refine hQ v q ?_ (by simpa using h.trans hq) (by simpa using hk)
  rw [wordsOf, List.map_eq_nil_iff, List.filter_eq_nil_iff]
  intro t ht
  simpa using hall t ht

/-- The operators that wait apply, and without an operand behind them there is no value. -/
theorem drain_sound (hp₀ : p₀.InOrder) (h : Partway p₀ array fs x t p) :
    Ensures (drain p₀.operators.length t) p
      (fun t' q => (∃ u code, p₀.Emits u code q) ∧ (t'.values = 1 → x ≠ none ∧
        ∃ (e : Expr) (u : List Token),
        e.wellFormed array = true ∧ wordsOf u = e.words ∧ p₀.Compiles u e.postorder q ∧
        t'.assigned = e.isAssignment ∧ t'.stepped = e.isStep ∧
        (p₀.strictness = .strict → comparisons e.words = t'.relations ∧ e.isDirect = true)))
      p₀.Refused := by
  have hp := h.inOrder hp₀
  by_cases hparen : ∃ f ∈ fs, f.isParen = true
  · obtain ⟨f, hf, hfp⟩ := hparen
    have hmem : (fs.map Frame.op).contains .paren = true := by
      rw [List.contains_iff_mem]
      exact List.mem_map.2 ⟨f, hf, (Frame.op_eq_paren_iff (h.standing.frames f hf)).2 hfp⟩
    simp only [drain, ensures_bind, ensures_get, h.above_eq, hmem, if_true]
    exact h.refused (refused_refl hp _)
  · push Not at hparen
    have hfs : ∀ f ∈ fs, f.isParen = false := fun f hf => Bool.eq_false_iff.2 (hparen f hf)
    cases x with
    | some e =>
      refine drain_step hp₀ h hfs fun t' u q hwords hq _ _ hassigned hstepped hcount => ?_
      exact ⟨⟨u, _, hq.progress⟩,
        fun _ => ⟨by simp, _, u, h.wellFormed_closed, hwords, hq, hassigned, hstepped, hcount⟩⟩
    | none =>
      refine drain_emits hp₀ h hfs fun q hq _ _ => ?_
      obtain ⟨u, -, hu⟩ := h.emits
      refine ⟨⟨_, _, hu.trans hq⟩, fun hone => ?_⟩
      simp [values_finish h hfs] at hone

theorem endExpression_sound (hp₀ : p₀.InOrder) (h : Partway p₀ array fs x t p)
    (hk : x ≠ none → p₀.token.kind ≠ .newline) :
    Ensures (endExpression p₀.operators.length ctx ends (p₀.token.kind == .symbol .leftParen) t) p
      (fun _ q => ∃ (e : Expr) (u : List Token),
        (e.wellFormed array = true ∧ e.Allowed p₀.strictness ctx.condition) ∧
        wordsOf u = e.words ∧ p₀.Compiles u (e.settled ctx) q) p₀.Refused := by
  simp only [endExpression, ensures_bind]
  refine (drain_sound hp₀ h).imp ?_
  rintro t' q ⟨⟨v, code, hv⟩, hone⟩
  have hrefuse (d : Diagnostic) : p₀.Refused (.refused d) q :=
    hv.refused (refused_refl (hv.inOrder hp₀) d)
  simp only [ensures_ite]
  split
  · next hvalues =>
    obtain ⟨hx, e, u, he, hwords, hu, hassigned, hstepped, hcount⟩ := hone hvalues
    have hfirst : (p₀.token.kind == .symbol .leftParen) = e.startsWithParen :=
      (startsWithParen_eq hu.rest_eq hwords (hk hx)).symm
    simp only [ensures_bind, ensures_kind, ensures_atDelimiter, ensures_ite, ensures_pure, hfirst]
    split
    · refine reportRelations_step hp₀ hu (fun r hr _ hle => ?_) fun _ d => hrefuse d
      have he : e.wellFormed array = true ∧ e.Allowed p₀.strictness ctx.condition :=
        ⟨he, fun hstrict => ⟨(hcount hstrict).2, (hcount hstrict).1 ▸ hle hstrict⟩⟩
      refine settleValue_step hp₀ hr hassigned hstepped fun s hs _ => ?_
      split
      · exact ⟨e, u, he, hwords, hs⟩
      · refine skipNewlines_sound hp₀ hs fun w z hw hz _ => ?_
        exact ⟨e, u ++ w, he, by simp [hwords, hw], hz⟩
    · exact hrefuse _
  · exact hrefuse _

/-- At a line feed nothing is read. -/
theorem turns_newline {Q : Option Tally → Pass → Prop} {E : Stop → Pass → Prop} {base : Nat}
    (hk : p.token.kind = .newline) (hQ : Q (some {}) p) :
    Ensures (turns sub base ctx) p Q E := by
  simp only [turns, perToken, ensures_bind, ensures_get]
  refine ensures_iterate_of_step (fun q => q.upcoming.length) (Nat.le_refl _) ?_
  simp only [turnStep, turn, ensures_bind, ensures_kind, hk, Token.Kind.inExpression,
    Bool.false_eq_true, if_false, ensures_pure]
  exact hQ

/-- What an expression comes to: an expression of the grammar and its code, or `()` and none. -/
def ExpressionRead (p : Pass) (ctx : Context) (r : Outcome) (q : Pass) : Prop :=
  match r with
  | .value => ∃ (e : Expr) (u : List Token),
      (e.wellFormed ctx.wholeArray = true ∧ e.Allowed p.strictness ctx.condition) ∧
      wordsOf u = e.words ∧ p.Compiles u (e.settled ctx) q
  | .empty => EmptyRead p q

/-- An expression behind the line feeds before it. -/
theorem unspaced_sound (hsub : SoundSub n sub) (hp : p.InOrder) (hn : p.upcoming.length ≤ n)
    (ends : Ends) :
    Ensures (turns sub p.operators.length ctx) p (fun r q =>
      Ensures (match r with
        | some t => do
          endExpression p.operators.length ctx ends (p.token.kind == .symbol .leftParen) t
          return .value
        | none => return .empty) q (ExpressionRead p ctx) p.Refused) p.Refused := by
  by_cases hk : p.token.kind = .newline
  · refine turns_newline hk ?_
    simp only [ensures_bind, ensures_pure]
    exact endExpression_sound hp (.start hp ctx.wholeArray) (by simp)
  · refine (turns_sound hsub hp hn).imp ?_
    rintro (_ | t) q hq
    · exact hq
    · obtain ⟨fs, x, h⟩ := hq
      simp only [ensures_bind, ensures_pure]
      exact endExpression_sound hp h fun _ => hk

/-- **An expression that is compiled is one of the grammar**, and its code is written. -/
theorem expressionWith_sound (hsub : SoundSub n sub) (hp : p.InOrder) (hn : p.upcoming.length ≤ n) :
    Ensures (expressionWith sub ctx ends) p (ExpressionRead p ctx) p.Refused := by
  simp only [expressionWith, ensures_bind, ensures_get, ensures_ite, ensures_isAt]
  split
  · exact unspaced_sound hsub hp hn ends
  · refine skipNewlines_sound hp (.refl hp) fun v q hv hq _ => ?_
    have hlength := hq.length_eq
    rw [← hq.operators]
    refine (unspaced_sound hsub (hq.inOrder hp) (by omega) ends).mono ?_ fun _ _ he => hq.refused he
    refine fun r s hs => hs.mono ?_ fun _ _ he => hq.refused he
    rintro (_ | _) z hz
    · obtain ⟨e, u, he, hwords, hu⟩ := hz
      rw [hq.strictness_eq] at he
      exact ⟨e, v ++ u, he, by simp [hv, hwords], by simpa using hq.trans hu⟩
    · obtain ⟨u, k, hwords, hprevious, hu⟩ := hz
      refine ⟨v ++ u, k, by simp [hv, hwords], fun hk => ?_, by simpa using hq.trans hu⟩
      exact previous_of_wordsOf hq.progress hv (by simp) (hprevious hk)

/-- Where a value is wanted an expression inside another one is one of the grammar. -/
theorem soundSub_of_expressionAt {γ : Type} (bound : List γ)
    (h : ∀ {ctx : Context} {ends : Ends} {q : Pass}, q.InOrder → q.upcoming.length ≤ bound.length →
      Ensures (expressionAt bound ctx ends) q (ExpressionRead q ctx) q.Refused) :
    SoundSub (bound.length + 1)
      (fun ctx ends => do requireValue (← expressionAt bound ctx ends)) := by
  intro ctx ends q hq hneeds hprinted hcondition hlt
  simp only [ensures_bind]
  refine (h hq (Nat.le_of_lt_succ hlt)).imp ?_
  rintro (_ | _) r hr
  · obtain ⟨e, u, ⟨he, hallowed⟩, hwords, hu⟩ := hr
    have hcode : e.settled ctx = e.postorder := by simp [Expr.settled, hneeds, hprinted]
    rw [hcondition] at hallowed
    exact ⟨e, he, fun hstrict => Nat.le_zero.1 (hallowed hstrict).2, u, hwords, hcode ▸ hu⟩
  · obtain ⟨u, -, -, -, hu⟩ := hr
    exact hu.refusedHere hq ⟨_, rfl⟩

/-- **Expressions that nest**, at most as deep as there are tokens. -/
theorem expressionAt_sound {γ : Type} (bound : List γ) (hp : p.InOrder)
    (hn : p.upcoming.length ≤ bound.length) :
    Ensures (expressionAt bound ctx ends) p (ExpressionRead p ctx) p.Refused := by
  induction bound generalizing p ctx ends with
  | nil =>
    rw [expressionAt]
    refine expressionWith_sound (n := 0) ?_ hp hn
    intro _ _ q _ _ _ _ hlt
    exact absurd hlt (Nat.not_lt_zero _)
  | cons b bound ih =>
    rw [expressionAt]
    exact expressionWith_sound (soundSub_of_expressionAt bound fun hq hle => ih hq hle) hp hn

theorem expressionOrEmpty_sound (hp : p.InOrder) :
    Ensures (expressionOrEmpty ctx ends) p (ExpressionRead p ctx) p.Refused := by
  simp only [expressionOrEmpty, ensures_bind, ensures_get]
  exact expressionAt_sound p.upcoming hp (Nat.le_refl _)

theorem expression_sound (hp : p.InOrder) : Ensures (expression ctx ends) p
      (fun _ q => ∃ (e : Expr) (u : List Token),
        (e.wellFormed ctx.wholeArray = true ∧ e.Allowed p.strictness ctx.condition) ∧
        wordsOf u = e.words ∧ p.Compiles u (e.settled ctx) q) p.Refused := by
  simp only [expression, ensures_bind]
  refine (expressionOrEmpty_sound hp).imp ?_
  rintro (_ | _) q hq
  · exact hq
  · obtain ⟨u, -, -, -, hu⟩ := hq
    exact hu.refusedHere hp ⟨_, rfl⟩

end DeskCalc.Compile
