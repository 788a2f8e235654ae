import DeskCalc.Proofs.Expression.Turn

/-!
# The end of an expression

At the end of an expression the operators that wait apply (`drain_step`), and then the value is
kept, printed or dropped. A value that nobody wants is not made at all if the expression assigns:
the last instruction is exchanged for one that leaves nothing (`Code.discardValue?_eq`). Altogether
the code of the expression is `Expr.settled` (`settleValue_step`).
-/

namespace DeskCalc

/-! ## Code that leaves no value -/

theorem forall₂_concat {P : Program} {code : List Symbolic} {s : Symbolic} {is : List Command}
    (h : List.Forall₂ P.Denotes (code ++ [s]) is) :
    ∃ js i, is = js ++ [i] ∧ List.Forall₂ P.Denotes code js ∧ P.Denotes s i := by
  induction code generalizing is with
  | nil =>
    cases h with
    | cons hs h =>
      cases h
      exact ⟨[], _, rfl, .nil, hs⟩
  | cons a code ih =>
    cases h with
    | cons ha h =>
      obtain ⟨js, i, rfl, hjs, hi⟩ := ih h
      exact ⟨_ :: js, i, rfl, .cons ha hjs, hi⟩

/-- `C` is the code of the expression that leaves its value, and `D` the code that leaves none:
only the operation at the root is exchanged, or `last` disposes of the value. -/
inductive Expr.Discards (last : Opcode) : Expr → List Command → List Command → Prop
  | assign {op : Option Arith} {left right : Expr} {C : List Command}
      (h : (Expr.binary (.assign op) left right).startsWithParen = false) :
      Discards last (.binary (.assign op) left right) (C ++ [(.assign op, [])])
        (C ++ [(.store op, [])])
  | preStep {up : Bool} {target : Expr} {C : List Command}
      (h : (Expr.preStep up target).startsWithParen = false) :
      Discards last (.preStep up target) (C ++ [(.assign (some (stepArith up)), [])])
        (C ++ [(.store (some (stepArith up)), [])])
  | postStep {up : Bool} {target : Expr} {C : List Command}
      (h : (Expr.postStep target up).startsWithParen = false) :
      Discards last (.postStep target up) (C ++ [(if up then .inc else .dec, [])])
        (C ++ [(.one, []), (.store (some (stepArith up)), [])])
  | value {e : Expr} {C : List Command}
      (h : e.startsWithParen = true ∨ e.isAssignment = false ∧ e.isStep = false) :
      Discards last e C (C ++ [(last, [])])

namespace Code

variable {P : Program} {c d : Code} {is : List Command} {code : List Symbolic} {op : Opcode}
  {t : Tally} {e : Expr}

/-- The last instruction can be exchanged, and those before it stay. -/
theorem Writes.exchange (h : c.Writes is d) (hd : List.Forall₂ P.Denotes (code ++ [.plain op]) is)
    (op' : Opcode) (hop : op'.operandCount = 0) :
    d.lastOpcode? = some op ∧ ∃ js d', is = js ++ [(op, [])] ∧ List.Forall₂ P.Denotes code js ∧
      d.replaceLast? op op' = some d' ∧ c.Writes (js ++ [(op', [])]) d' := by
  obtain ⟨js, i, rfl, hjs, rfl⟩ := forall₂_concat hd
  obtain ⟨d', line, hd', -, rfl⟩ := h.of_snoc
  have hlength : ([] : List Nat).length = op'.operandCount := hop.symm
  exact ⟨lastOpcode?_write .., js, _, rfl, hjs, replaceLast?_write _ hop _, .snoc hd' hlength line⟩

theorem discardValue?_eq_none (hassigned : t.assigned = false) (hstepped : t.stepped = false)
    (line : Nat) : d.discardValue? t line = none := by
  unfold discardValue?
  split
  · rfl
  · simp [hassigned, hstepped]

/-- The code of a value that nobody wants. -/
theorem discardValue?_eq (h : c.Writes is d) (hd : List.Forall₂ P.Denotes e.postorder is)
    (hassigned : t.assigned = e.isAssignment) (hstepped : t.stepped = e.isStep) (line : Nat) :
    match e.discarded with
    | none => d.discardValue? t line = none
    | some code => ∃ d' js, d.discardValue? t line = some d' ∧ c.Writes js d' ∧
        List.Forall₂ P.Denotes code js ∧
        ∀ last, e.startsWithParen = false → e.Discards last is js := by
  cases e with
  | binary op left right =>
    cases op with
    | assign op =>
      simp only [Expr.postorder, Operator.opcode?, Option.map_some, Option.toList_some] at hd
      obtain ⟨hlast, js, d', rfl, hjs, hd', hw⟩ := h.exchange hd (.store op) (by cases op <;> rfl)
      refine ⟨d', _, ?_, hw, List.rel_append hjs (.cons rfl .nil), fun _ => .assign⟩
      rw [discardValue?, hlast]
      simp [hassigned, Expr.isAssignment, Operator.isAssignment, Opcode.discarding?, hd']
    | _ => exact discardValue?_eq_none hassigned hstepped line
  | preStep up target =>
    have hsplit (op : Opcode) : target.postorder ++ [.plain .one, .plain op] =
        (target.postorder ++ [.plain .one]) ++ [.plain op] := by simp
    rw [Expr.postorder, hsplit] at hd
    obtain ⟨hlast, js, d', rfl, hjs, hd', hw⟩ :=
      h.exchange hd (.store (some (Expr.stepArith up))) (by cases up <;> rfl)
    refine ⟨d', _, ?_, hw, hsplit _ ▸ List.rel_append hjs (.cons rfl .nil), fun _ => .preStep⟩
    rw [discardValue?, hlast]
    cases up <;>
      simp [hassigned, hstepped, Expr.isAssignment, Expr.isStep, Expr.stepArith] at hd' ⊢ <;>
      exact hd'
  | postStep target up =>
    simp only [Expr.postorder] at hd
    obtain ⟨hlast, js, d', rfl, hjs, hd', hw⟩ := h.exchange hd .one rfl
    have hop : ([] : List Nat).length = (Opcode.store (some (Expr.stepArith up))).operandCount := by
      cases up <;> rfl
    refine ⟨d'.write (.store (some (Expr.stepArith up))) [] line, _, ?_,
      by simpa using hw.snoc hop line, List.rel_append hjs (.cons rfl (.cons rfl .nil)),
      fun _ => .postStep⟩
    rw [discardValue?, hlast]
    cases up <;>
      simp_all [Expr.isAssignment, Expr.isStep, Expr.stepArith, write]
  | _ => exact discardValue?_eq_none hassigned hstepped line

end Code

namespace Compile

variable {p₀ p : Pass} {u : List Token} {e : Expr} {t : Tally} {E : Stop → Pass → Prop}
  {Q : Tally → Pass → Prop}

/-- Code that leaves a value becomes code that leaves none, if there is such code. -/
theorem suppressValue_step {Q : Bool → Pass → Prop} (h : p₀.Compiles u e.postorder p)
    (hassigned : t.assigned = e.isAssignment) (hstepped : t.stepped = e.isStep)
    (hnone : e.discarded = none → Q false p)
    (hsome : ∀ code q, e.discarded = some code → p₀.Compiles u code q → q.rest = p.rest →
      Q true q) :
    Ensures (suppressValue t) p Q E := by
  obtain ⟨⟨is, his, hd⟩, ho⟩ := h
  obtain ⟨f, c, hf, hc, hq⟩ := his.program.written
  have htarget := his.target
  have hfun : p.program.function? p.target = some { f with code := c } := htarget ▸ hq
  have hcode := Code.discardValue?_eq hc hd hassigned hstepped p.token.span.line
  simp only [suppressValue, function, ensures_bind, ensures_get, hfun, ensures_pure, ensures_here]
  cases he : e.discarded with
  | none =>
    rw [he] at hcode
    simp only [hcode, ensures_pure]
    exact hnone he
  | some code =>
    rw [he] at hcode
    obtain ⟨d, js, hd', hjs, hdenotes, -⟩ := hcode
    simp only [hd', ensures_bind, putFunction, ensures_modify, ensures_pure]
    refine hsome code _ he ⟨⟨js, ?_, ?_⟩, ho⟩ rfl
    · have hrewrite := his.program.rewrite hf hjs hq
      rw [← htarget] at hrewrite
      exact { his with program := htarget ▸ hrewrite }
    · refine hdenotes.imp fun _ _ => Program.Denotes.mono .put

variable {ctx : Context} {array : Bool} {fs : List Frame}

/-- The expression starts with a parenthesis if its first token is one. -/
theorem startsWithParen_eq {v : List Token} (hu : p.rest = u ++ v)
    (hwords : wordsOf u = e.words) (hk : p.token.kind ≠ .newline) :
    e.startsWithParen = (p.token.kind == .symbol .leftParen) := by
  cases u with
  | nil => exact absurd hwords.symm e.words_ne_nil
  | cons t u =>
    obtain rfl : p.token = t := (List.cons.inj hu).1
    have hhead : e.words.head? = some p.token.word := by
      rw [← hwords]
      simp [wordsOf, hk]
    rw [Expr.startsWithParen, hhead, Token.word]
    cases hkind : p.token.kind <;> simp [Symbol.word]

/-- **The value of an expression is kept, printed or dropped.** -/
theorem settleValue_step {Q : Unit → Pass → Prop} (hp₀ : p₀.InOrder)
    (h : p₀.Compiles u e.postorder p) (hassigned : t.assigned = e.isAssignment)
    (hstepped : t.stepped = e.isStep)
    (hQ : ∀ q, p₀.Compiles u (e.settled ctx) q → q.rest = p.rest → Q () q) :
    Ensures (settleValue ctx e.startsWithParen t) p Q E := by
  -- whatever is emitted comes behind the value
  have hemit {op : Opcode} (hop : op.operandCount = 0)
      (hcode : e.settled ctx = e.postorder ++ [.plain op]) : Ensures (emit op) p Q E :=
    emit_step hp₀ h hop fun r hr hrest => hQ r (hcode ▸ hr) hrest
  have hkeep (hcode : e.settled ctx = e.postorder) : Q () p := hQ p (hcode ▸ h) rfl
  simp only [settleValue, ensures_bind, ensures_ite, hassigned]
  by_cases hvalue : (ctx.needsValue || e.startsWithParen) = true
  · simp only [hvalue, if_true, ensures_pure, Bool.not_false, Bool.true_and, Bool.and_true]
    split
    · next hprinted =>
      split
      · next hprint =>
        refine hemit rfl ?_
        cases hneeds : ctx.needsValue <;> simp_all [Expr.settled]
      · next hprint =>
        refine hkeep ?_
        cases hneeds : ctx.needsValue <;> simp_all [Expr.settled]
    · next hprinted =>
      split
      · next hneeds =>
        refine hemit rfl ?_
        simp_all [Expr.settled]
      · next hneeds =>
        refine hkeep ?_
        simp_all [Expr.settled]
  · rw [if_neg hvalue]
    simp only [Bool.or_eq_true, not_or, Bool.not_eq_true] at hvalue
    obtain ⟨hneeds, hparen⟩ := hvalue
    refine suppressValue_step h hassigned hstepped (fun hnone => ?_) fun code q hsome hq hr => ?_
    · have hassign := (Expr.root_of_discarded hnone).1
      simp only [hparen, hassign, hneeds, Bool.not_false, Bool.and_self, Bool.or_true, if_true]
      split
      · next hprinted =>
        refine hemit rfl ?_
        simp [Expr.settled, hneeds, hparen, hnone, hprinted]
      · next hprinted =>
        refine hemit rfl ?_
        simp [Expr.settled, hneeds, hparen, hnone, hprinted]
    · have hcode : e.settled ctx = code := by
        simp [Expr.settled, hneeds, hparen, hsome]
      simp only [Bool.not_true, Bool.false_and, Bool.and_false, Bool.false_eq_true, if_false,
        ensures_pure, ite_self]
      exact hQ q (hcode ▸ hq) hr

/-- Comparisons are reported, which changes neither the tokens nor the code. -/
theorem reportRelations_step {Q : Unit → Pass → Prop} {code : List Symbolic} (hp₀ : p₀.InOrder)
    (h : p₀.Compiles u code p)
    (hQ : ∀ q, p₀.Compiles u code q → q.rest = p.rest →
      (p₀.strictness = .strict → t.relations ≤ if ctx.condition then 1 else 0) → Q () q)
    (hE : p.strictness = .strict → ∀ d, E (.refused d) p) :
    Ensures (reportRelations ctx t) p Q E := by
  have hreport {v : Violation} : Ensures (report v p.token.span) p Q E := by
    cases hstrict : p.strictness with
    | strict =>
      simp only [report, ensures_bind, ensures_get, hstrict]
      exact hE hstrict _
    | _ =>
      refine ensures_report (h.inOrder hp₀) (fun q hq ho hr => hQ q ?_ hr fun hp => ?_) hE
      · have : p.Compiles [] [] q := ⟨⟨[], hq, .nil⟩, ho⟩
        simpa using h.trans this
      · cases hstrict.symm.trans (h.strictness_eq.trans hp)
  simp only [reportRelations, ensures_ite, ensures_bind, ensures_here, ensures_pure]
  split
  · next hcondition =>
    split
    · exact hreport
    · exact hQ p h rfl fun _ => by rw [if_pos hcondition]; omega
  · next hcondition =>
    split
    · exact hreport
    · exact hQ p h rfl fun _ => by rw [if_neg hcondition]; omega

variable {x : Option Expr}

/-- The operators that wait apply. -/
theorem drain_emits (hp₀ : p₀.InOrder) (h : Partway p₀ array fs x t p)
    (hfs : ∀ f ∈ fs, f.isParen = false)
    (hQ : ∀ q, p.Emits [] (operatorCode fs) q → q.operators = p₀.operators → q.rest = p.rest →
      Q (t.finish (fs.map Frame.op)) q) : Ensures (drain p₀.operators.length t) p Q E := by
  have hp := h.inOrder hp₀
  have hparen : (fs.map Frame.op).contains .paren = false := by
    rw [← Bool.not_eq_true, List.contains_iff_mem]
    intro hmem
    obtain ⟨f, hf, hop⟩ := List.mem_map.1 hmem
    have := (Frame.op_eq_paren_iff (h.standing.frames f hf)).1 hop
    simp [hfs f hf] at this
  simp only [drain, ensures_bind, ensures_get, h.above_eq, hparen, Bool.false_eq_true, if_false]
  refine emitOperators_step hp (.refl hp) _ fun q hq hr => ?_
  rw [List.nil_append, opcodesOf_map] at hq
  simp only [dropOperators, ensures_modify, ensures_pure]
  refine hQ _ (hq.progress.setOperators _) ?_ hr
  simp [hq.operators, h.operators]

/-- The values that are left: one, if there is an operand behind the operators. -/
theorem values_finish (h : Partway p₀ array fs x t p) (hfs : ∀ f ∈ fs, f.isParen = false) :
    (t.finish (fs.map Frame.op)).values = x.toList.length := by
  have := h.values
  simp only [Tally.finish, Tally.apply,
    Partway.length_filter_isUnary (fun g hg => h.standing.frames g hg) hfs]
  omega

/-- With an operand behind them the operators make an expression. -/
theorem drain_step (hp₀ : p₀.InOrder) (h : Partway p₀ array fs (some e) t p)
    (hfs : ∀ f ∈ fs, f.isParen = false)
    (hQ : ∀ t' u q, wordsOf u = (plugAll fs e).words → p₀.Compiles u (plugAll fs e).postorder q →
      q.rest = p.rest → t'.values = 1 → t'.assigned = (plugAll fs e).isAssignment →
      t'.stepped = (plugAll fs e).isStep →
      (p₀.strictness = .strict → comparisons (plugAll fs e).words = t'.relations ∧
        (plugAll fs e).isDirect = true) → Q t' q) : Ensures (drain p₀.operators.length t) p Q E := by
  refine drain_emits hp₀ h hfs fun q hq ho hr => ?_
  obtain ⟨u, hwords, hu⟩ := h.emits
  refine hQ _ u q ?_ ⟨?_, ho⟩ hr (values_finish h hfs) ?_ ?_ fun hstrict => ?_
  · rw [words_plugAll hfs, hwords, operandWords_some]
  · rw [postorder_plugAll]
    simpa using hu.trans hq
  · rw [isAssignment_plugAll h.standing hfs (h.level e rfl)]
    rfl
  · rw [isStep_plugAll hfs]
    simp [Tally.finish, Tally.apply, h.stepped]
  · have ht := h.tallied hstrict
    exact ⟨by rw [words_plugAll hfs]; exact ht.relations,
      isDirect_plugAll ht.frames (ht.operand e rfl)⟩

end Compile

end DeskCalc
