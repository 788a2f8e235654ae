import DeskCalc.Proofs.Chunks.Items
import DeskCalc.Proofs.Layout.Placing

/-!
# The beginnings of statements

What is done with a statement up to the end of its line, if it has no body, and otherwise up to the
body: `statementHead_here` and the headers. A header opens a body; the `Opening` keeps the labels
that the end of the body will need.
-/

namespace DeskCalc

/-- How an expression of the language can begin. -/
theorem Expr.exists_words_eq {array : Bool} :
    (e : Expr) → e.wellFormed array = true →
      ∃ w ws, e.words = w :: ws ∧ (w.1.startsExpression = true ∨ w.1 = .string)
  | .number _, _ | .string _, _ | .var _, _ | .elem _ _, _ | .setting _, _ | .whole _, _
  | .call _ _, _ | .query _, _ | .unary _ _, _ | .scaleOf _, _ | .modexp _ _ _, _
  | .divmod _ _ _, _ => by
    simp [words, wholeWords, Token.Kind.startsExpression, Keyword.isOperand]
  | .paren _, _ => by simp [words, Token.Kind.startsExpression]
  | .preStep up _, _ => by cases up <;> simp [words, stepSymbol, Token.Kind.startsExpression]
  | .prefixed op _, h => by
    cases op <;> simp_all [wellFormed, Operator.isUnary, words, Operator.word,
      Token.Kind.startsExpression]
  | .postStep e _, h | .trunc e, h | .binary _ e _, h => by
    simp only [wellFormed, Bool.and_eq_true] at h
    have he : e.wellFormed false = true := by simp [h]
    obtain ⟨w, ws, hw, hstarts⟩ := exists_words_eq e he
    simp [words, hw, hstarts]

theorem Expr.exists_words_of_not_string {e : Expr} (he : e.wellFormed false = true)
    (hstring : e.startsWithString = false) :
    ∃ w ws, e.words = w :: ws ∧ w.1.startsExpression = true := by
  obtain ⟨w, ws, hw, hstarts⟩ := e.exists_words_eq he
  refine ⟨w, ws, hw, hstarts.resolve_right fun hs => ?_⟩
  simp [startsWithString, hw, hs] at hstring

/-- A statement that is no brace can begin with a word of this kind. -/
def Token.Kind.opensStatement (k : Token.Kind) : Bool :=
  k.startsExpression || k == .string ||
    [Keyword.print, .halt, .breakLoop, .continueLoop, .returnValue, .ifBranch, .whileLoop,
      .forLoop].any fun word => k == .keyword word

theorem Token.Kind.ne_of_opensStatement {k k' : Token.Kind} (h : k.opensStatement = true)
    (h' : k'.opensStatement = false) : k ≠ k' := by
  rintro rfl
  rw [h] at h'
  cases h'

/-- What can stand behind a statement. -/
def Token.Kind.followsStatement (k : Token.Kind) : Bool :=
  k.opensStatement || k == .symbol .leftBrace || k == .symbol .rightBrace || k == .eof ||
    k == .keyword .elseBranch

theorem Token.Kind.ne_of_followsStatement {k k' : Token.Kind} (h : k.followsStatement = true)
    (h' : k'.followsStatement = false) : k ≠ k' := by
  rintro rfl
  rw [h] at h'
  cases h'

/-- How a statement without a body begins. -/
theorem Simple.exists_words_eq {s : Simple} {inLoop inFunc : Bool}
    (h : s.wellFormed inLoop inFunc = true) :
    ∃ v vs, s.words = v :: vs ∧ v.1.opensStatement = true := by
  cases s with
  | value e =>
    simp only [wellFormed, Bool.and_eq_true, Bool.not_eq_true'] at h
    obtain ⟨v, vs, hv, hstarts⟩ := Expr.exists_words_of_not_string h.1 h.2
    exact ⟨v, vs, hv, by simp [Token.Kind.opensStatement, hstarts]⟩
  | text t => exact ⟨_, _, rfl, rfl⟩
  | print items => exact ⟨_, _, rfl, rfl⟩
  | halt | breakLoop | continueLoop => exact ⟨_, _, rfl, rfl⟩
  | returnValue e => cases e <;> exact ⟨_, _, rfl, rfl⟩

theorem placed_append (code code' : List Symbolic) :
    placed (code ++ code') = placed code ++ placed code' := List.map_append

/-! ## Bodies -/

/-- What opened a body: a loop, with the label where it continues, an `if`, or an `else`. The last
label lies at the end of the body. -/
inductive Opening
  | loop (next exit : Nat)
  | branch (exit : Nat)
  | other (exit : Nat)

namespace Opening

/-- The marks of the body. -/
def block : Opening → Block
  | loop _ _ => { inLoop := true, loopBody := true }
  | branch _ => { ifBody := true }
  | other _ => { elseBody := true }

/-- The pending label at the end. -/
def exit : Opening → Exit
  | loop _ l => ⟨l, true⟩
  | branch l | other l => ⟨l, false⟩

/-- The label `continue` jumps to. -/
def continues : Opening → List Nat
  | loop l _ => [l]
  | branch _ | other _ => []

end Opening

namespace Outline

/-- The body is awaited. -/
def enter (o : Outline) (f : Opening) : Outline :=
  { o with
    blocks := o.blocks.push (f.block.bodyIn o.blocks.top)
    exits := f.exit :: o.exits
    continues := f.continues ++ o.continues }

/-- What may stand here, where the loop around has these targets. -/
structure Allows (ps : List Nat) (o : Outline) (inLoop inFunc : Bool) (loop : Targets) :
    Prop where
  looped : inLoop = true → o.blocks.top.inLoop = true
  exit : inLoop = true →
    ∃ x, o.exits.find? (·.isLoop) = some x ∧ ps[x.label]? = some loop.exit
  next : inLoop = true → ∃ l, o.continues.head? = some l ∧ ps[l]? = some loop.next
  defined : inFunc = true → o.blocks.top.inFunc = true

end Outline

namespace Compile

variable {p : Pass} {o : Outline} {code : List Placed} {ps : List Nat} {n : Nat} {w : Word}
  {ws : List Word} {E : Stop → Pass → Prop} {Q : Unit → Pass → Prop} {ctx : Context} {ends : Ends}
  {e : Option Expr}

/-! ## Expressions -/

section

variable {e : Expr} (h : p.Here ps o code n (e.words ++ w :: ws)) (hanswer : ctx.answer = false)
  (harray : ctx.wholeArray = false) (he : e.wellFormed false = true) (hprevious : p.Unblocked)
  (hends : ends ∈ Ends.all) (hw : w.1 ∈ ends)
include h hanswer harray he hprevious hends hw

theorem expressionOrEmpty_here {Q : Outcome → Pass → Prop}
    (hQ : ∀ q, q.Here ps o (code ++ placed (e.settled ctx)) n (w :: ws) → Q .value q) :
    Ensures (expressionOrEmpty ctx ends) p Q OnlyShort := by
  simp only [expressionOrEmpty, ensures_bind, ensures_get]
  refine (expressionAt_complete hanswer (harray ▸ he) hprevious h.words
    (Ends.endsExpression hends hw) (by simp [Expr.isWhole_of_wellFormed he]) p.upcoming h.inOrder
    h.lenient (Nat.le_refl _) hw).imp ?_
  rintro _ q ⟨rfl, ⟨u, hu⟩, hq⟩
  exact hQ q (h.compiles hu hq)

theorem expression_here
    (hQ : ∀ q, q.Here ps o (code ++ placed (e.settled ctx)) n (w :: ws) → Q () q) :
    Ensures (expression ctx ends) p Q OnlyShort := by
  rw [expression, ensures_bind]
  exact expressionOrEmpty_here h hanswer harray he hprevious hends hw hQ

end

/-- The code of an expression whose value is kept. -/
theorem settled_of_needsValue (hneeds : ctx.needsValue = true) (hprinted : ctx.printed = false)
    (e : Expr) : e.settled ctx = e.postorder := by
  simp [Expr.settled, hneeds, hprinted]

theorem string_here {text : String} (h : p.Here ps o code n ((.string, text) :: ws))
    (hQ : ∀ q, q.Here ps o (code ++ placed (textCode text)) n ws → Q () q) :
    Ensures string p Q OnlyShort := by
  refine (string_complete h.inOrder h.words (h.isClear_tail (by simp))).imp ?_
  rintro - q ⟨u, -, hu, hq⟩
  exact hQ q (h.compiles hu hq)

theorem report_here {v : Violation} {span : Span} (h : p.Here ps o code n ws) (hQ : Q () p) :
    Ensures (report v span) p Q E := by
  simp only [report, ensures_bind, ensures_get, h.lenient]
  exact hQ

/-! ## Statements without a body -/

theorem isDelimited_of_newline (hk : p.token.kind = .newline) : isDelimited p = true := by
  simp [isDelimited, hk]

theorem isDelimited_of_starts
    (hk : p.token.kind.startsExpression = true ∨ p.token.kind = .string) :
    isDelimited p = false := by
  rcases hk with hk | hk
  · unfold isDelimited
    split <;> simp_all [Token.Kind.startsExpression, Keyword.isOperand]
  · simp [isDelimited, hk]

/-- The words of some items begin like an expression or with a string. -/
theorem isDelimited_of_items {item : PrintItem} {items : List PrintItem}
    (hitem : item.wellFormed = true)
    (h : p.Here ps o code n (PrintItem.wordsOfAll (item :: items) ++ ws)) :
    isDelimited p = false := by
  have hhead : ∃ v vs, item.words = v :: vs ∧ (v.1.startsExpression = true ∨ v.1 = .string) := by
    cases item with
    | text t => exact ⟨_, [], rfl, .inr rfl⟩
    | value e =>
      simp only [PrintItem.wellFormed, Bool.and_eq_true] at hitem
      exact e.exists_words_eq hitem.1
  obtain ⟨v, vs, hv, hstarts⟩ := hhead
  have hwords : ∃ us, PrintItem.wordsOfAll (item :: items) = v :: us := by
    cases items with
    | nil => exact ⟨vs, hv⟩
    | cons item' items =>
      exact ⟨vs ++ Symbol.word .comma :: PrintItem.wordsOfAll (item' :: items), by
        simp [PrintItem.wordsOfAll, hv]⟩
  obtain ⟨us, hus⟩ := hwords
  rw [hus] at h
  exact isDelimited_of_starts (h.kind_eq ▸ hstarts)

/-- One item of a `print`, up to what stands behind it. -/
theorem printItem_here {item : PrintItem} (hitem : item.wellFormed = true)
    (h : p.Here ps o code n (item.words ++ w :: ws)) (hw : w.1 ∈ Ends.printItem)
    (hprevious : p.previous.blocksStep = false)
    (hQ : ∀ q, q.Here ps o (code ++ placed item.code) n (w :: ws) → Q () q) :
    if p.token.kind == .string then
      Ensures string p (fun _ q => Ensures (emit .printPop) q Q OnlyShort) OnlyShort
    else
      Ensures (expression { needsValue := true } Ends.printItem) p
        (fun _ q => Ensures (emit .printPop) q Q OnlyShort) OnlyShort := by
  cases item with
  | text t =>
    have hkind : p.token.kind = .string := h.kind_eq
    rw [hkind]
    refine string_here h fun q hq => emit_here hq rfl fun r hr _ => hQ r ?_
    simpa [PrintItem.code, placed_append] using hr
  | value e =>
    simp only [PrintItem.wellFormed, Bool.and_eq_true, Bool.not_eq_true'] at hitem
    obtain ⟨v, vs, hv, hstarts⟩ := Expr.exists_words_of_not_string hitem.1 hitem.2
    have hkind : p.token.kind = v.1 :=
      Pass.kind_of_words (h.words.trans (by rw [PrintItem.words, hv]; rfl))
    have hne : v.1 ≠ .string := by
      rintro hs
      simp [hs, Token.Kind.startsExpression] at hstarts
    rw [hkind, if_neg (by simpa using hne)]
    refine expression_here h rfl rfl hitem.1 (.of_previous hprevious) (by decide) hw
      fun q hq => ?_
    refine emit_here hq rfl fun r hr _ => hQ r ?_
    rw [settled_of_needsValue rfl rfl] at hr
    simpa [PrintItem.code, placed_append] using hr

/-- The items of a `print`. -/
theorem printItems_here {items : List PrintItem}
    (hitems : items ≠ [] ∧ ∀ item ∈ items, item.wellFormed = true)
    (h : p.Here ps o code n
      (Keyword.word .print :: PrintItem.wordsOfAll items ++ (.newline, "") :: ws))
    (hQ : ∀ q, q.Here ps o (code ++ placed (items.flatMap (·.code))) n ((.newline, "") :: ws) →
      Q () q) : Ensures (printItems .printPop) p Q OnlyShort := by
  obtain ⟨hne, hall⟩ := hitems
  rw [printItems, ensures_bind]
  refine advance_here h (by simp) fun q hq hprevious => ?_
  obtain ⟨item, rest, hcons⟩ := List.exists_cons_of_ne_nil hne
  simp only [ensures_bind, ensures_atDelimiter, ensures_ite]
  rw [isDelimited_of_items (hall item (by simp [hcons])) (hcons ▸ hq), if_neg Bool.false_ne_true]
  -- at the beginning of each item those before it have been compiled
  refine ensures_perToken (fun _ r => ∃ done item rest, items = done ++ item :: rest ∧
    r.Here ps o (code ++ placed (done.flatMap (·.code))) n
      (PrintItem.wordsOfAll (item :: rest) ++ (.newline, "") :: ws) ∧
    r.previous.blocksStep = false) ?_ ⟨[], item, rest, hcons, by simpa [placed, hcons] using hq, ?_⟩
  · rintro - r ⟨done, item, rest, rfl, hr, hstep⟩
    have hitem : item.wellFormed = true := hall item (by simp)
    have hcode : placed (done.flatMap (·.code)) ++ placed item.code =
        placed ((done ++ [item]).flatMap (·.code)) := by
      rw [← placed_append]
      simp
    simp only [printStep, printNext, ensures_bind, ensures_isAt, ensures_ite]
    cases rest with
    | nil =>
      refine printItem_here hitem hr (by decide) hstep fun t ht => ?_
      have hkind : t.token.kind = .newline := ht.kind_eq
      rw [List.append_assoc, hcode] at ht
      rw [hkind, if_neg (by decide), ensures_atDelimiter, if_pos (isDelimited_of_newline hkind)]
      exact hQ t ht
    | cons next rest =>
      rw [PrintItem.wordsOfAll, List.append_assoc, List.cons_append] at hr
      · refine printItem_here hitem hr (by decide) hstep fun t ht => ?_
        have hkind : t.token.kind = .symbol .comma := ht.kind_eq
        rw [List.append_assoc, hcode] at ht
        rw [hkind, if_pos (by decide)]
        refine advance_here ht (by simp) fun u hu hcomma => ?_
        rw [ensures_atDelimiter, if_neg (by simp [isDelimited_of_items (hall next (by simp)) hu])]
        refine ⟨⟨done ++ [item], next, rest, by simp, hu, by rw [hcomma]; rfl⟩, ?_⟩
        exact hr.length_lt hu (by simp; omega)
      · simp
  · rw [hprevious]
    rfl

theorem leaveLoop_here {outside : Cause} {l t : Nat} (h : p.Here ps o code n (w :: ws))
    (heof : w.1 ≠ .eof) (hloop : o.blocks.top.inLoop = true) (hl : ps[l]? = some t)
    (hQ : ∀ q, q.Here ps o (code ++ [.jump t]) n ws → Q () q) :
    Ensures (leaveLoop (some l) outside) p Q OnlyShort := by
  simp only [leaveLoop, ensures_bind, ensures_topBlock, ensures_ite, h.blocks_eq, hloop, if_true]
  exact emitJump_here h hl fun q hq _ => advance_here hq heof fun r hr _ => hQ r hr

theorem returnValue_here (he : e.all (·.wellFormed false) = true)
    (hdefined : o.blocks.top.inFunc = true)
    (h : p.Here ps o code n ((Simple.returnValue e).words ++ (.newline, "") :: ws))
    (hQ : ∀ q, q.Here ps o (code ++ (Simple.returnValue e).layout {}) n ((.newline, "") :: ws) →
      Q () q) : Ensures returnValue p Q OnlyShort := by
  obtain ⟨f, hf, hlaid⟩ := h.function
  simp only [returnValue, ensures_bind, ensures_topBlock, ensures_ite, h.blocks_eq, hdefined,
    if_true, ensures_function hf.writing.function, hlaid.isVoid, ensures_here]
  cases e with
  | none =>
    refine advance_here h (by simp) fun q hq _ => ?_
    have hkind : q.token.kind = .newline := hq.kind_eq
    rw [ensures_isAt, ensures_atDelimiter, if_pos (isDelimited_of_newline hkind)]
    exact emit_here hq rfl fun r hr _ => hQ r hr
  | some e =>
    have he : e.wellFormed false = true := he
    refine advance_here h (by simp) fun q hq hprevious => ?_
    have hdelimited : isDelimited q = false := by
      obtain ⟨v, vs, hv, hstarts⟩ := e.exists_words_eq he
      rw [hv] at hq
      exact isDelimited_of_starts (hq.kind_eq ▸ hstarts)
    rw [ensures_isAt, ensures_atDelimiter, if_neg (by simp [hdelimited])]
    refine expressionOrEmpty_here hq rfl rfl he (.of_previous (by rw [hprevious]; rfl)) (by decide)
      (by decide) fun r hr => ?_
    rw [settled_of_needsValue rfl rfl] at hr
    have hdone : Ensures (emit .ret) r Q OnlyShort := by
      refine emit_here hr rfl fun t ht _ => hQ t ?_
      simpa [Simple.layout, placed_append] using ht
    obtain ⟨g, hg, hlaid⟩ := hr.function
    simp only [returned, ensures_bind, ensures_function hg.writing.function, ensures_ite,
      hlaid.isVoid, Bool.false_eq_true, if_false, ensures_get]
    split
    · exact hdone
    · exact report_here hr hdone

/-- **A statement without a body**, up to the end of its line. -/
theorem statementHead_here {s : Simple} {inLoop inFunc : Bool} {loop : Targets}
    (hs : s.wellFormed inLoop inFunc = true) (ho : o.Allows ps inLoop inFunc loop)
    (h : p.Here ps o code n (s.words ++ (.newline, "") :: ws)) (hprevious : p.Unblocked)
    (hQ : ∀ q, q.Here ps o (code ++ s.layout loop) n ((.newline, "") :: ws) → Q () q) :
    Ensures (statementHead p.token.kind) p Q OnlyShort := by
  cases s with
  | value e =>
    simp only [Simple.wellFormed, Bool.and_eq_true, Bool.not_eq_true'] at hs
    obtain ⟨v, vs, hv, hstarts⟩ := Expr.exists_words_of_not_string hs.1 hs.2
    have hkind : p.token.kind = v.1 :=
      Pass.kind_of_words (h.words.trans (by rw [Simple.words, hv]; rfl))
    unfold statementHead
    rw [hkind, if_pos hstarts]
    exact expression_here h rfl rfl hs.1 hprevious (by decide) (by decide) hQ
  | text t =>
    have hkind : p.token.kind = .string := h.kind_eq
    rw [hkind]
    simp only [statementHead, Token.Kind.startsExpression, Bool.false_eq_true, if_false,
      ensures_bind]
    refine string_here h fun q hq => emit_here hq rfl fun r hr _ => hQ r ?_
    simpa [Simple.layout, placed_append] using hr
  | print items =>
    simp only [Simple.wellFormed, Bool.and_eq_true, Bool.not_eq_true', List.isEmpty_eq_false_iff,
      List.all_eq_true] at hs
    have hkind : p.token.kind = .keyword .print := h.kind_eq
    rw [hkind]
    exact printItems_here hs h hQ
  | halt =>
    have hkind : p.token.kind = .keyword .halt := h.kind_eq
    rw [hkind]
    refine (ensures_bind _ _).2 (emit_here h rfl fun q hq _ => ?_)
    exact advance_here hq (by simp) fun r hr _ => hQ r hr
  | breakLoop =>
    have hkind : p.token.kind = .keyword .breakLoop := h.kind_eq
    obtain ⟨x, hx, hlabel⟩ := ho.exit hs
    rw [hkind]
    refine (ensures_bind _ _).2 ?_
    rw [ensures_get, h.exits_eq, hx]
    exact leaveLoop_here h (by simp) (ho.looped hs) hlabel hQ
  | continueLoop =>
    have hkind : p.token.kind = .keyword .continueLoop := h.kind_eq
    obtain ⟨l, hl, hlabel⟩ := ho.next hs
    rw [hkind]
    refine (ensures_bind _ _).2 ?_
    rw [ensures_get, h.continues_eq, hl]
    exact leaveLoop_here h (by simp) (ho.looped hs) hlabel hQ
  | returnValue e =>
    simp only [Simple.wellFormed, Bool.and_eq_true] at hs
    have hkind : p.token.kind = .keyword .returnValue := by
      cases e <;> exact h.kind_eq
    rw [hkind]
    refine returnValue_here hs.2 (ho.defined hs.1) h fun q hq => hQ q ?_
    cases e <;> exact hq

/-! ## Headers -/

theorem ifHeader_here {c : Expr} {t : Nat} (hc : c.wellFormed false = true)
    (h : p.Here ps o code n (Keyword.word .ifBranch :: Symbol.word .leftParen ::
      (c.words ++ Symbol.word .rightParen :: ws))) (hexit : ps[n]? = some t)
    (hQ : ∀ q, q.Here ps (o.enter (.branch n)) (code ++ placed c.postorder ++ [.jumpZero t]) (n + 1)
      ws → Q () q) : Ensures ifHeader p Q OnlyShort := by
  simp only [ifHeader, ensures_bind]
  refine advance_here h (by simp) fun q hq _ => expect_here hq fun q hq hprevious => ?_
  refine expression_here hq rfl rfl hc (.of_previous (by rw [hprevious]; rfl)) (by decide)
    (by decide) fun q hq => expect_here hq fun q hq _ => nextLabel_here hq ?_
  rw [settled_of_needsValue rfl rfl] at hq
  refine emitJumpZero_here hq hexit fun q hq _ => openExit_here hq false fun q hq _ => ?_
  exact modifyBlocks_here hq _ fun q hq _ => hQ q hq

theorem whileHeader_here {c : Expr} {t : Nat} (hc : c.wellFormed false = true)
    (h : p.Here ps o code n (Keyword.word .whileLoop :: Symbol.word .leftParen ::
      (c.words ++ Symbol.word .rightParen :: ws))) (hstart : ps[n]? = some code.length)
    (hexit : ps[n + 1]? = some t)
    (hQ : ∀ q, q.Here ps (o.enter (.loop n (n + 1))) (code ++ placed c.postorder ++ [.jumpZero t])
      (n + 2) ws → Q () q) : Ensures whileHeader p Q OnlyShort := by
  simp only [whileHeader, ensures_bind]
  refine advance_here h (by simp) fun q hq _ => expect_here hq fun q hq hparen => ?_
  refine continueHere_here hq hstart fun r hr hcontinue => ?_
  refine openExit_here hr true fun u hu hopen => ?_
  have hprevious : u.previous.blocksStep = false := by
    rw [hopen, hcontinue, hparen]
    rfl
  refine expression_here hu rfl rfl hc (.of_previous hprevious) (by decide) (by decide)
    fun q hq => expect_here hq fun q hq _ => ?_
  rw [settled_of_needsValue rfl rfl] at hq
  refine emitJumpZero_here hq hexit fun q hq _ => ?_
  exact modifyBlocks_here hq _ fun q hq _ => hQ q hq

/-- A clause of a `for`. If it is not there `fallback` writes the code `missing`. -/
theorem forClause_here {stop : Symbol} {fallback : Compile Unit} {missing : List Symbolic}
    (he : e.all (·.wellFormed false) = true)
    (h : p.Here ps o code n (clauseWords e ++ stop.word :: ws)) (hanswer : ctx.answer = false)
    (harray : ctx.wholeArray = false) (hprevious : p.previous.blocksStep = false)
    (hends : ends ∈ Ends.all) (hstop : .symbol stop ∈ ends)
    (hstarts : (Token.Kind.symbol stop).startsExpression = false)
    (hfallback : ∀ Q : Unit → Pass → Prop, p.Here ps o code n (stop.word :: ws) →
      (∀ q, q.Here ps o (code ++ placed missing) n (stop.word :: ws) → Q () q) →
      Ensures fallback p Q OnlyShort)
    (hQ : ∀ q, q.Here ps o (code ++ placed ((e.map (·.settled ctx)).getD missing)) n
      (stop.word :: ws) → Q () q) :
    Ensures (forClause ctx ends (.symbol stop) fallback) p Q OnlyShort := by
  simp only [forClause, ensures_bind, ensures_here, ensures_isAt, ensures_ite]
  cases e with
  | none =>
    have hkind : p.token.kind = .symbol stop := h.kind_eq
    rw [hkind, if_pos (by simp)]
    simp only [ensures_pure, ensures_bind]
    exact hfallback _ h fun q hq => report_here hq (hQ q hq)
  | some e =>
    have he : e.wellFormed false = true := he
    obtain ⟨v, vs, hv, hbegins⟩ := e.exists_words_eq he
    have hwords : clauseWords (some e) = v :: vs := hv
    have hkind : p.token.kind = v.1 := Pass.kind_of_words (h.words.trans (by rw [hwords]; rfl))
    have hne : v.1 ≠ .symbol stop := by
      rintro heq
      rw [heq, hstarts] at hbegins
      simp at hbegins
    rw [hkind, if_neg (by simpa using hne)]
    exact expressionOrEmpty_here h hanswer harray he (.of_previous hprevious) hends hstop hQ

theorem ensureLabel_here {l : Nat} (hQ : Q () p) : Ensures (ensureLabel l l) p Q E := by
  rw [ensureLabel, if_pos rfl]
  exact hQ

/-- The first or the last clause of a `for`. -/
theorem dropClause_here {stop : Symbol} (he : e.all (·.wellFormed false) = true)
    (h : p.Here ps o code n (clauseWords e ++ stop.word :: ws))
    (hprevious : p.previous.blocksStep = false) (hends : ends ∈ Ends.all)
    (hstop : .symbol stop ∈ ends) (hstarts : (Token.Kind.symbol stop).startsExpression = false)
    (hQ : ∀ q, q.Here ps o (code ++ placed (clauseCode e)) n (stop.word :: ws) → Q () q) :
    Ensures (forClause {} ends (.symbol stop) (pure ())) p Q OnlyShort := by
  refine forClause_here he h rfl rfl hprevious hends hstop hstarts (fun Q hp hQ => hQ p ?_) hQ
  simpa [placed] using hp

/-- The condition of a `for`. -/
theorem testClause_here (he : e.all (·.wellFormed false) = true)
    (h : p.Here ps o code n (clauseWords e ++ Symbol.word .semicolon :: ws))
    (hprevious : p.previous.blocksStep = false)
    (hQ : ∀ q, q.Here ps o (code ++ placed (testCode e)) n (Symbol.word .semicolon :: ws) →
      Q () q) :
    Ensures (forClause conditionContext Ends.clause (.symbol .semicolon) (emit .one)) p Q
      OnlyShort := by
  have hcode : (e.map (·.settled conditionContext)).getD [.plain .one] = testCode e := by
    have hsettled : Expr.settled conditionContext = Expr.postorder :=
      funext (settled_of_needsValue rfl rfl)
    rw [testCode, hsettled]
  refine forClause_here he h rfl rfl hprevious (by decide) (by decide) rfl
    (fun Q hp hQ => emit_here hp rfl fun q hq _ => hQ q hq) fun q hq => hQ q ?_
  rwa [hcode] at hq

theorem forHeader_here {first test next : Option Expr} {start update inside exit : Nat}
    (hfirst : first.all (·.wellFormed false) = true) (htest : test.all (·.wellFormed false) = true)
    (hnext : next.all (·.wellFormed false) = true)
    (h : p.Here ps o code n (Keyword.word .forLoop :: Symbol.word .leftParen ::
      (clauseWords first ++ Symbol.word .semicolon :: (clauseWords test ++
        Symbol.word .semicolon :: (clauseWords next ++ Symbol.word .rightParen :: ws)))))
    (hstart : start = code.length + (clauseCode first).length)
    (hupdate : update = start + (testCode test).length + 2)
    (hinside : inside = update + (clauseCode next).length + 1)
    (hlabels : ps[n]? = some start ∧ ps[n + 1]? = some update ∧ ps[n + 2]? = some inside ∧
      ps[n + 3]? = some exit)
    (hQ : ∀ q, q.Here ps (o.enter (.loop (n + 1) (n + 3)))
      (code ++ placed (clauseCode first) ++ placed (testCode test) ++ [.jumpZero exit] ++
        [.jump inside] ++ placed (clauseCode next) ++ [.jump start]) (n + 4) ws → Q () q) :
    Ensures forHeader p Q OnlyShort := by
  obtain ⟨hn, hn1, hn2, hn3⟩ := hlabels
  simp only [forHeader, ensures_bind]
  refine advance_here h (by simp) fun q hq _ => expect_here hq fun q hq hprevious => ?_
  refine dropClause_here hfirst hq (by rw [hprevious]; rfl) (by decide) (by decide) rfl
    fun q hq => ?_
  refine expect_here hq fun q hq hprevious => nextLabel_here hq ?_
  refine labelHere_here hq (by simpa [hstart] using hn) fun r hr hlabel => ensureLabel_here ?_
  refine testClause_here htest hr (by rw [hlabel, hprevious]; rfl) fun q hq => ?_
  refine expect_here hq fun q hq hprevious => emitJumpZero_here hq hn3 fun r hr hzero => ?_
  refine emitJump_here hr hn2 fun t ht hjump => ?_
  refine continueHere_here ht ?_ fun u hu hcontinue => ensureLabel_here ?_
  · simp only [hn1, hupdate, hstart, List.length_append, length_placed, List.length_singleton]
  · refine dropClause_here hnext hu (by rw [hcontinue, hjump, hzero, hprevious]; rfl) (by decide)
      (by decide) rfl fun q hq => ?_
    have hkind : q.token.kind = .symbol .rightParen := hq.kind_eq
    rw [ensures_isAt, hkind, if_pos BEq.rfl]
    simp only [ensures_bind]
    refine emitJump_here hq hn fun r hr _ => labelHere_here hr ?_ fun q hq _ => ensureLabel_here ?_
    · simp only [hn2, hinside, hupdate, hstart, List.length_append, length_placed,
        List.length_singleton]
    · refine openExit_here hq true fun r hr _ => ensureLabel_here ?_
      refine advance_here hr (by simp) fun q hq _ => modifyBlocks_here hq _ fun r hr _ => hQ r ?_
      exact hr

end Compile

end DeskCalc
