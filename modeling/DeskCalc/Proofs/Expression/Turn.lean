import DeskCalc.Proofs.Partway

/-!
# What one token does to an expression

The tokens that operators and parentheses are written with change the frames of an expression as
`Partway` has it. Each of these lemmas follows the compiler through one token. They can fail only
by moving on to an error token, and `MovesOn p E` says what that means to whoever asks.
-/

namespace DeskCalc

/-- The stack of operators is no part of what was read and written. -/
theorem Pass.Emits.setOperators {p q : Pass} {u : List Token} {code : List Symbolic}
    (h : p.Emits u code q) (ops : List Operator) : p.Emits u code { q with operators := ops } := by
  obtain ⟨is, his, hd⟩ := h
  exact ⟨is, { his with }, hd⟩

namespace Compile

variable {p₀ p : Pass} {array : Bool} {fs gs hs : List Frame} {x : Option Expr} {e : Expr}
  {t : Tally} {op : Operator} {E : Stop → Pass → Prop} {Q : Unit → Pass → Prop}

/-- The instructions of some operators. -/
def opcodesOf (ops : List Operator) : List Symbolic :=
  ops.flatMap fun op => (op.opcode?.map Symbolic.plain).toList

theorem opcodesOf_map (fs : List Frame) : opcodesOf (fs.map Frame.op) = operatorCode fs := by
  simp [opcodesOf, operatorCode, List.flatMap_map]

theorem operandCount_of_opcode? {code : Opcode} (h : op.opcode? = some code) :
    code.operandCount = 0 := by
  cases op <;> simp_all [Operator.opcode?] <;> subst h <;> rfl

theorem emitOperators_step {u : List Token} {code : List Symbolic} (hp₀ : p₀.InOrder)
    (h : p₀.Compiles u code p) (ops : List Operator)
    (hQ : ∀ q, p₀.Compiles u (code ++ opcodesOf ops) q → q.rest = p.rest → Q () q) :
    Ensures (emitOperators ops) p Q E := by
  induction ops generalizing p code with
  | nil => exact hQ p (by simpa [opcodesOf] using h) rfl
  | cons op ops ih =>
    rw [emitOperators]
    cases hop : op.opcode? with
    | none =>
      refine ih h fun q hq hr => hQ q ?_ hr
      simpa [opcodesOf, hop] using hq
    | some c =>
      simp only [ensures_bind]
      refine emit_step hp₀ h (operandCount_of_opcode? hop) fun q hq hr => ?_
      refine ih hq fun q' hq' hr' => hQ q' ?_ (hr'.trans hr)
      simpa [opcodesOf, hop] using hq'

/-- The frames `gs` apply, and `op` waits. -/
theorem awaitOperand_step {Q : Tally → Pass → Prop} (hp₀ : p₀.InOrder)
    (h : Partway p₀ array (gs ++ hs) x t p) (hgs : ∀ g ∈ gs, g.op.appliesBefore op = true)
    (hhs : ∀ g ∈ hs.head?, ¬ g.op.appliesBefore op = true) {t' : Tally}
    (hQ : ∀ q, p.Emits [] (operatorCode gs) q → q.operators = op :: p.operators.drop gs.length →
      q.rest = p.rest → Q (t'.apply (gs.map Frame.op)) q) :
    Ensures (awaitOperand p₀.operators.length op t') p Q E := by
  have hp := h.inOrder hp₀
  have hready : (above p₀.operators.length p.operators).takeWhile (·.appliesBefore op) =
      gs.map Frame.op := by
    rw [h.above_eq, List.map_append, List.takeWhile_append_of_pos (by simpa using hgs)]
    cases hs with
    | nil => simp
    | cons f hs => simp [hhs f (by simp)]
  simp only [awaitOperand, ensures_bind, ensures_get, hready]
  refine emitOperators_step hp (.refl hp) _ fun q hq hr => ?_
  simp only [dropOperators, pushOperator, ensures_modify, ensures_pure]
  rw [List.nil_append, opcodesOf_map] at hq
  refine hQ _ (hq.progress.setOperators _) ?_ hr
  simp [hq.operators]

/-! ## Moving on -/

/-- Moving on from `p` to an error token is a failure with `E`. -/
def MovesOn (p : Pass) (E : Stop → Pass → Prop) : Prop :=
  ∀ s code r, s.IsRefusal → p.Emits [p.token] code r → r.token.kind = .error → E s r

theorem movesOn_refused (p : Pass) : MovesOn p p.Refused := by
  rintro s code r hs ⟨is, his, -⟩ -
  exact ⟨hs, _, _, his⟩

/-- Moving on after code was written and the stack of operators changed. -/
theorem advance_step {q : Pass} {code : List Symbolic} (hp : p.InOrder) (hmove : MovesOn p E)
    (h : p.Emits [] code q) (hr : q.rest = p.rest) (heof : p.token.kind ≠ .eof)
    (hQ : ∀ r, p.Emits [p.token] code r → r.operators = q.operators → Q () r) :
    Ensures advance q Q E := by
  have ht : q.token = p.token := (List.cons.inj hr).1
  have hread {r : Pass} (hr : q.Progress [q.token] [] r) : p.Emits [p.token] code r := by
    have := h.trans ⟨[], hr, .nil⟩
    simpa [ht] using this
  refine (ensures_advance (h.inOrder hp) (ht ▸ heof)).mono ?_ ?_
  · rintro - r ⟨hr, ho, -⟩
    exact hQ r (hread hr) ho
  · rintro s r ⟨hs, hr, hk⟩
    exact hmove s code r hs (hread hr) hk

/-! ## Operators and parentheses -/

section

variable (hp₀ : p₀.InOrder) (hmove : MovesOn p E)
include hp₀ hmove

/-- An operator between its operands. -/
theorem awaitBinary_step {Q : Tally → Pass → Prop} (h : Partway p₀ array (gs ++ hs) (some e) t p)
    (he : e.wellFormed false = true) (hop : op.isBinary = true)
    (hgs : ∀ g ∈ gs, g.op.appliesBefore op = true)
    (hhs : ∀ g ∈ hs.head?, ¬ g.op.appliesBefore op = true)
    (hassign : op.isAssignment = true → gs = [] ∧ e.isAssignable = true) {t' : Tally}
    (ht' : t.Counts op t') (hk : wordsOf [p.token] = [op.word]) (heof : p.token.kind ≠ .eof)
    (hQ : ∀ t' q code, p.Emits [p.token] code q →
      Partway p₀ array (.binary (plugAll gs e) op :: hs) none t' q → Q t' q) :
    Ensures (awaitOperand p₀.operators.length op t') p
      (fun t' q => Ensures advance q (fun _ q => Q t'.operator q) E) E := by
  refine awaitOperand_step hp₀ h hgs hhs fun q hq ho hr => ?_
  refine advance_step (h.inOrder hp₀) hmove hq hr heof fun r hr ho' => ?_
  exact hQ _ r _ hr (h.binary he hop hgs hhs hassign hr hk (ho'.trans ho) ht')

/-- An operator before its operand. -/
theorem awaitPrefix_step {Q : Tally → Pass → Prop} (h : Partway p₀ array fs none t p)
    (hop : op.isUnary = true) (hk : wordsOf [p.token] = [op.word]) (heof : p.token.kind ≠ .eof)
    (hQ : ∀ q code, p.Emits [p.token] code q →
      Partway p₀ array (.prefixed op :: fs) none t.operator q → Q t.operator q) :
    Ensures (awaitOperand p₀.operators.length op t) p
      (fun t' q => Ensures advance q (fun _ q => Q t'.operator q) E) E := by
  have hfirst (top : Operator) : ¬ top.appliesBefore op = true := by
    rw [Operator.appliesBefore_iff, Operator.takesLeft_iff, Operator.isLeftAssoc_iff]
    have := (Operator.isUnary_iff op).1 hop
    have := top.precedence_pos
    omega
  have hnone : Partway p₀ array ([] ++ fs) none t p := h
  refine awaitOperand_step hp₀ hnone (by simp) (fun g _ => hfirst g.op) fun q hq ho hr => ?_
  refine advance_step (h.inOrder hp₀) hmove hq hr heof fun r hr ho' => ?_
  exact hQ r _ hr (h.prefixed hop hr hk (ho'.trans ho))

/-- A minus before its operand or an open parenthesis. -/
theorem push_step (h : Partway p₀ array fs none t p) (heof : p.token.kind ≠ .eof)
    (hQ : ∀ q, p.Emits [p.token] [] q → q.operators = op :: p.operators → Q () q) :
    Ensures (pushOperator op) p (fun _ q => Ensures advance q Q E) E := by
  have hp := h.inOrder hp₀
  have hself : p.Emits [] [] p := (Pass.Compiles.refl hp).progress
  simp only [pushOperator, ensures_modify]
  exact advance_step hp hmove (hself.setOperators _) rfl heof hQ

/-- A closing parenthesis. -/
theorem closeParen_step {Q : Turn → Pass → Prop}
    (h : Partway p₀ array (gs ++ .paren :: hs) (some e) t p) (hgs : ∀ g ∈ gs, g.isParen = false)
    (hk : p.token.kind = .symbol .rightParen) (hprevious : p.previous ≠ .symbol .leftParen)
    (hQ : ∀ t' q code, p.Emits [p.token] code q →
      Partway p₀ array hs (some (.paren (plugAll gs e))) t' q → Q (.more t') q) :
    Ensures (closeParen p₀.operators.length t) p Q E := by
  have hp := h.inOrder hp₀
  have hready : ((gs ++ .paren :: hs).map Frame.op).takeWhile (· != .paren) = gs.map Frame.op := by
    rw [List.map_append, List.takeWhile_append_of_pos]
    · simp [Frame.op]
    · intro o ho
      obtain ⟨g, hg, rfl⟩ := List.mem_map.1 ho
      have := Frame.op_eq_paren_iff (h.standing.frames g (List.mem_append_left _ hg))
      simp [this, hgs g hg]
  have hparens : t.parens ≠ 0 := by
    rw [h.parens]
    simp [Frame.isParen]
  simp only [closeParen, ensures_bind, ensures_get, ensures_ite, h.above_eq, hready, h.complete_eq,
    hparens, hprevious, Option.isSome_some, if_true, if_false]
  refine emitOperators_step hp (.refl hp) _ fun q hq hr => ?_
  rw [List.nil_append, opcodesOf_map] at hq
  rw [if_neg (by simp)]
  simp only [dropOperators, ensures_modify, ensures_pure, List.length_map]
  refine advance_step hp hmove (hq.progress.setOperators _) hr (by simp [hk]) fun r hr' ho => ?_
  refine hQ _ r _ hr' (h.closeParen hgs hr' hk ?_)
  simp [ho, hq.operators]

/-- A `$` behind its operand. -/
theorem trunc_step (h : Partway p₀ array fs (some e) t p) (hk : p.token.kind = .symbol .dollar)
    (hQ : ∀ q code, p.Emits [p.token] code q →
      Partway p₀ array fs (some (.trunc e)) t.truncated q → Q () q) :
    Ensures (emit .trunc) p (fun _ q => Ensures advance q Q E) E := by
  have hp := h.inOrder hp₀
  have he : e.wellFormed false = true := h.wellFormed_false (by simp [hk]) (by simp [hk])
  refine emit_step hp (.refl hp) rfl fun q hq hr => ?_
  refine advance_step hp hmove hq.progress hr (by simp [hk]) fun r hr ho => ?_
  exact hQ r _ hr (h.trunc he ⟨hr, ho.trans hq.operators⟩ hk)

/-- A step behind its target. -/
theorem postStep_step (h : Partway p₀ array fs (some e) t p) (htarget : e.isTarget = true)
    {up : Bool} (hk : p.token.kind = .symbol (Expr.stepSymbol up))
    (hQ : ∀ q code, p.Emits [p.token] code q →
      Partway p₀ array fs (some (.postStep e up)) t.postStep q → Q () q) :
    Ensures (emit (if up then .inc else .dec)) p (fun _ q => Ensures advance q Q E) E := by
  have hp := h.inOrder hp₀
  have he : e.wellFormed false = true :=
    h.wellFormed_false (by cases up <;> simp [hk, Expr.stepSymbol])
      (by cases up <;> simp [hk, Expr.stepSymbol])
  refine emit_step hp (.refl hp) (by cases up <;> rfl) fun q hq hr => ?_
  refine advance_step hp hmove hq.progress hr (by simp [hk]) fun r hr ho => ?_
  exact hQ r _ hr (h.postStep he htarget ⟨hr, ho.trans hq.operators⟩ hk)

end

end Compile

end DeskCalc
