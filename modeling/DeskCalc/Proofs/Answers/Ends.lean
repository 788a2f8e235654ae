import DeskCalc.Proofs.Answers
import DeskCalc.Proofs.Expression.Parts
import DeskCalc.Proofs.Expression.Values

/-!
# Where an answer ends

The answer to a `read()` is one expression, and what is behind it in the text is not looked at
(`Session.compileAnswer_single`). The token behind the expression ends a statement: a line feed, the
end of the text or a semicolon, or else a brace or an `else` that the open blocks wait for. Only for
these two does it matter which blocks are open: expressions are made of parts that do not look at
them as long as no brace and no `else` comes up (`Compile.indifferent`).
-/

namespace DeskCalc

/-! ## Tokens that end a block -/

/-- No token of an expression ends a block. -/
theorem endsBlock_of_wordsOf {u : List Token} {e : Expr} (h : wordsOf u = e.words) :
    ∀ t ∈ u, t.kind.endsBlock = false := by
  intro t ht
  by_cases hk : t.kind = .newline
  · rw [hk]
    rfl
  · have hmem : t.word ∈ e.words := by
      rw [← h, wordsOf, List.mem_map]
      exact ⟨t, List.mem_filter.2 ⟨ht, by simpa using hk⟩, rfl⟩
    have hinner := List.all_eq_true.1 e.all_words_isInner _ hmem
    simp only [Expr.isInner, Token.word_fst, Bool.and_eq_true, Bool.not_eq_true'] at hinner
    exact hinner.1.1.1.1

/-! ## Parts that do not look at the blocks -/

namespace Compile

variable {α β : Type} {p P q : Pass} {blocks : BlockStack}

/-- Where `m` succeeds on `p` without coming to a token that ends a block, `M` comes to the same on
`P`, whatever blocks are open there. -/
def Indifferent (m : Compile α) (p : Pass) (M : Compile α) (P : Pass) : Prop :=
  ∀ a q, m p = .ok a q → ∃ u, p.rest = u ++ q.rest ∧
    ((∀ t ∈ u, t.kind.endsBlock = false) → q.token.kind.endsBlock = false →
      M P = .ok a { q with blocks := P.blocks })

theorem Indifferent.bind {m M : Compile α} {f F : α → Compile β} (hm : Indifferent m p M P)
    (hf : ∀ a q, m p = .ok a q → Indifferent (f a) q (F a) { q with blocks := P.blocks }) :
    Indifferent (m >>= f) p (M >>= F) P := by
  intro b r h
  obtain ⟨a, q, hq, hr⟩ := bind_eq_ok h
  obtain ⟨u, hu, hsame⟩ := hm a q hq
  obtain ⟨v, hv, hsame'⟩ := hf a q hq b r hr
  refine ⟨u ++ v, by rw [hu, hv, List.append_assoc], fun hall hend => ?_⟩
  have htoken : q.token.kind.endsBlock = false := by
    cases v with
    | nil =>
      obtain ⟨heq, -⟩ : q.token = r.token ∧ _ := List.cons.inj hv
      rw [heq]
      exact hend
    | cons t v =>
      obtain ⟨heq, -⟩ : q.token = t ∧ _ := List.cons.inj hv
      rw [heq]
      exact hall t (by simp)
  rw [bind_of_ok (hsame (fun t ht => hall t (List.mem_append_left _ ht)) htoken)]
  exact hsame' (fun t ht => hall t (List.mem_append_right _ ht)) hend

/-- What stays at its token and does not look at the blocks. -/
theorem indifferent_of_rest {m M : Compile α}
    (h : ∀ a q, m p = .ok a q → q.rest = p.rest ∧ M P = .ok a { q with blocks := P.blocks }) :
    Indifferent m p M P := by
  intro a q hq
  obtain ⟨hrest, hsame⟩ := h a q hq
  exact ⟨[], by simp [hrest], fun _ _ => hsame⟩

theorem indifferent_advance : Indifferent advance p advance { p with blocks := blocks } := by
  intro a q h
  rcases p with ⟨s, token, previous, _ | ⟨⟨tok, ws, error⟩, rest⟩, quitting⟩
  · cases h
    exact ⟨[], rfl, fun _ _ => rfl⟩
  · cases error with
    | none =>
      cases h
      exact ⟨[token], rfl, fun _ _ => rfl⟩
    | some n => cases h

theorem indifferent_atDelimiter :
    Indifferent atDelimiter p atDelimiter { p with blocks := blocks } := by
  intro a q h
  cases h
  refine ⟨[], rfl, fun _ hend => ?_⟩
  have hdelimited : isDelimited { p with blocks := blocks } = isDelimited p := by
    unfold isDelimited
    split <;> simp_all [Token.Kind.endsBlock]
  change EStateM.Result.ok (isDelimited { p with blocks := blocks }) _ = _
  rw [hdelimited]

theorem indifferent_emitWith (op : Opcode) (operands : List Nat) :
    Indifferent (emitWith op operands) p (emitWith op operands) { p with blocks := blocks } := by
  refine indifferent_of_rest fun a q h => ?_
  cases hf : p.program.function? p.target with
  | none =>
    have hhas : p.program.hasFunction p.target = false := by
      rw [Program.hasFunction_eq, hf]
      rfl
    rw [emitWith, bind_of_ok (rfl : here p = .ok p.token.span p), modifyFunction,
      bind_of_ok (rfl : (get : Compile Pass) p = .ok p p), hhas] at h
    cases h
  | some f =>
    rw [emitWith_recode hf] at h
    cases h
    exact ⟨rfl, emitWith_recode (p := { p with blocks := blocks }) hf op operands⟩

theorem indifferent_suppressValue (t : Tally) :
    Indifferent (suppressValue t) p (suppressValue t) { p with blocks := blocks } := by
  refine indifferent_of_rest fun a q h => ?_
  cases hf : p.program.function? p.target with
  | none =>
    rw [suppressValue, function, bind_assoc, bind_of_ok (rfl : (get : Compile Pass) p = .ok p p),
      hf] at h
    cases h
  | some f =>
    rw [suppressValue_recode hf] at h
    have heq := suppressValue_recode (p := { p with blocks := blocks }) hf t
    dsimp only at heq
    cases hd : f.code.discardValue? t p.token.span.line with
    | none =>
      rw [hd] at h heq
      cases h
      exact ⟨rfl, heq⟩
    | some d =>
      rw [hd] at h heq
      cases h
      exact ⟨rfl, heq⟩

theorem indifferent_intern (f : Program → Except Diagnostic (Nat × Program)) :
    Indifferent (intern f) p (intern f) { p with blocks := blocks } := by
  refine indifferent_of_rest fun k q h => ?_
  obtain ⟨P, hP, rfl⟩ := exists_of_intern h
  refine ⟨rfl, ?_⟩
  simp only [intern, get_bind, hP]
  rfl

theorem indifferent_report (v : Violation) (span : Span) :
    Indifferent (report v span) p (report v span) { p with blocks := blocks } := by
  refine indifferent_of_rest fun a q h => ?_
  rcases p with ⟨⟨P, mode⟩⟩
  cases mode with
  | lenient =>
    cases h
    exact ⟨rfl, rfl⟩
  | warn =>
    cases h
    exact ⟨rfl, rfl⟩
  | strict => cases h

/-- **Expressions do not look at the open blocks**, as long as nothing comes up that ends one. -/
def indifferent : Parts where
  Rel p P := ∃ blocks, P = { p with blocks := blocks }
  Out := Indifferent
  Like t T := T = t
  Fit _ := True
  reads := true
  under := []
  like := .of_eq
  view h := by
    obtain ⟨blocks, rfl⟩ := h
    exact ⟨rfl, rfl, (List.append_nil _).symm⟩
  fit _ _ := trivial
  pure h _ := indifferent_of_rest fun _ _ hm => by
    obtain ⟨blocks, rfl⟩ := h
    cases hm
    exact ⟨rfl, rfl⟩
  refuse _ _ _ _ := fun _ _ hm => by cases hm
  bind hm hf := Indifferent.bind hm fun a q hq => hf a q _ hq ⟨_, rfl⟩
  get h := h
  exceed _ := fun _ _ hm => by cases hm
  bounded h _ _ hgood := by
    obtain ⟨blocks, rfl⟩ := h
    exact hgood _
  advance h := by
    obtain ⟨blocks, rfl⟩ := h
    exact indifferent_advance
  atDelimiter h := by
    obtain ⟨blocks, rfl⟩ := h
    exact indifferent_atDelimiter
  report h ht v := by
    obtain ⟨blocks, rfl⟩ := h
    exact ht ▸ indifferent_report v _
  operators h _ _ hops := indifferent_of_rest fun _ _ hm => by
    obtain ⟨blocks, rfl⟩ := h
    rw [List.append_nil] at hops
    subst hops
    cases hm
    exact ⟨rfl, rfl⟩
  emit h _ _ := by
    obtain ⟨blocks, rfl⟩ := h
    exact indifferent_emitWith _ _
  enter h ht _ _ := by
    obtain ⟨blocks, rfl⟩ := h
    exact ht ▸ indifferent_intern _
  suppressValue h t := by
    obtain ⟨blocks, rfl⟩ := h
    exact indifferent_suppressValue t

instance permits_indifferent (ctx : Context) : Permits indifferent ctx := ⟨fun _ => rfl⟩

theorem indifferent_answer (p : Pass) (blocks : BlockStack) :
    Indifferent answer p answer { p with blocks := blocks } := by
  refine indifferent_advance.bind fun _ q _ => ?_
  refine Indifferent.bind (indifferent.run ⟨_, rfl⟩) fun _ r _ => ?_
  exact indifferent_emitWith _ _

end Compile

/-! ## Answers -/

open Compile

/-- The token ends an answer while these blocks are open. -/
def BlockStack.endsAnswer (blocks : BlockStack) : Token.Kind → Bool
  | .newline | .eof | .symbol .semicolon => true
  | .symbol .rightBrace => blocks.hasBrace
  | .keyword .elseBranch => elseBinds false blocks.toList
  | _ => false

namespace Compile

variable {p q : Pass}

theorem endsAnswer_of_evaluated {array b : Bool} {e : Expr} {u : List Token} {t : Tally}
    (h : Evaluated p array Ends.answer e u b t q) : p.blocks.endsAnswer q.token.kind = true := by
  obtain ⟨⟨is, hu, -⟩, -⟩ := h.compiles
  have hprevious : (q.previous == .symbol .rightBrace) = false := by
    have hne : u ≠ [] := by
      rintro rfl
      exact e.words_ne_nil h.words.symm
    rw [hu.previous, List.getLast?_eq_some_getLast hne]
    have hlast := endsBlock_of_wordsOf h.words _ (List.getLast_mem hne)
    rw [beq_eq_false_iff_ne]
    rintro (hbrace : (u.getLast hne).kind = _)
    rw [hbrace] at hlast
    cases hlast
  have hended := h.ended
  rw [isDelimited, hprevious, hu.blocks] at hended
  unfold BlockStack.endsAnswer
  split <;> simp_all [Ends.answer]

/-- **An answer is one expression**, up to a token that ends it. -/
theorem answer_single (hp : p.InOrder) (hup : p.upcoming ≠ []) (h : answer p = .ok () q) :
    ∃ (e : Expr) (u : List Token), p.rest = p.token :: (u ++ q.rest) ∧
      e.wellFormed false = true ∧ wordsOf u = e.words ∧
      p.blocks.endsAnswer q.token.kind = true := by
  obtain ⟨_, p₁, hadvance, h⟩ := bind_eq_ok h
  obtain ⟨_, p₂, hexpression, hemit⟩ := bind_eq_ok h
  obtain ⟨r, rest, hcons⟩ := List.exists_cons_of_ne_nil hup
  obtain ⟨hp₁, -⟩ := (ensures_advance_of_cons hp hcons).ok hadvance
  have hin := hp₁.inOrder hp
  obtain ⟨-, e, u, b, t, p₂', -, he, hskip, -⟩ :=
    expression_keeping { answer := true } hin hexpression
  cases hskip
  have hp₂ := he.compiles.rest_eq
  have hq : q.rest = p₂.rest ∧ q.token = p₂.token := by
    obtain ⟨f, hf⟩ := (he.compiles.inOrder hin).function
    rw [emit, emitWith_recode hf] at hemit
    cases hemit
    exact ⟨rfl, rfl⟩
  refine ⟨e, u, ?_, he.wellFormed, he.words, ?_⟩
  · rw [hq.1, ← hp₂]
    exact hp₁.rest
  · rw [hq.2, ← hp₁.blocks]
    exact endsAnswer_of_evaluated he

end Compile

namespace Session

variable {s : Session} {text : String} {q : Pass}

/-- The session while an answer is compiled. -/
def answering (s : Session) : Session := { s.clearAnswer with target := Program.answerId }

theorem compileAnswer_of_ok (h : answer (Pass.start s.answering text) = .ok () q) :
    s.compileAnswer text = (.ok (), { q.toSession with target := Program.mainId }) := by
  have hrun : s.answering.run text answer = (.ok (), q.toSession) := by
    rw [run, h]
  rw [answering] at hrun
  rw [compileAnswer, hrun]

theorem exists_of_compileAnswer (h : (s.compileAnswer text).1 = .ok ()) :
    ∃ q, answer (Pass.start s.answering text) = .ok () q := by
  cases hm : answer (Pass.start s.answering text) with
  | ok _ q => exact ⟨q, rfl⟩
  | error e q =>
    have hrun : s.answering.run text answer = (.error e, q.toSession) := by
      rw [run, hm]
    rw [answering] at hrun
    rw [compileAnswer, hrun] at h
    cases e <;> cases h

/-- **An accepted answer is one expression.** Its text begins with the tokens `u` of the expression
and a token `t` that ends it. Which blocks are open matters only if this is a brace or an `else`. -/
theorem compileAnswer_single (h : (s.compileAnswer text).1 = .ok ()) :
    ∃ (e : Expr) (u v : List Token) (t : Token),
      (readTokens s.strictness text).map (·.token) = u ++ t :: v ∧
      e.wellFormed false = true ∧ wordsOf u = e.words ∧ s.blocks.endsAnswer t.kind = true ∧
      (t.kind.endsBlock = false → ∀ blocks, { s with blocks := blocks }.compileAnswer text =
        (.ok (), { (s.compileAnswer text).2 with blocks := blocks })) := by
  obtain ⟨q, hq⟩ := exists_of_compileAnswer h
  have hp : (Pass.start s.answering text).InOrder := inOrder_start rfl text
  have hup : (Pass.start s.answering text).upcoming ≠ [] := by
    obtain ⟨rs, r, hrs, -⟩ := exists_readTokens_eq s.strictness text
    intro hnil
    have hnil' : readTokens s.strictness text = [] := hnil
    simp [hrs] at hnil'
  obtain ⟨e, u, hrest, he, hwords, hend⟩ := answer_single hp hup hq
  refine ⟨e, u, q.upcoming.map Reading.token, q.token, (List.cons.inj hrest).2, he, hwords, hend,
    fun hplain blocks => ?_⟩
  obtain ⟨w, hw, hsame⟩ := indifferent_answer _ blocks _ _ hq
  have hall : ∀ t ∈ w, t.kind.endsBlock = false := by
    have hw' : w = (Pass.start s.answering text).token :: u :=
      List.append_cancel_right (hw.symm.trans hrest)
    rw [hw']
    rintro t (_ | ⟨_, ht⟩)
    · rfl
    · exact endsBlock_of_wordsOf hwords t ht
  rw [compileAnswer_of_ok hq]
  exact compileAnswer_of_ok (s := { s with blocks := blocks }) (hsame hall hplain)

/-- What is behind the first line of an answer is not looked at. -/
theorem answerLines_single :
    (insideDefinition.compileAnswer "f(1\n) + a[2]\nx \x7d\n").1 = .ok () ∧
    ∃ (e : Expr) (u v : List Token) (t : Token),
      (readTokens insideDefinition.strictness "f(1\n) + a[2]\nx \x7d\n").map (·.token) =
        u ++ t :: v ∧
      e.wellFormed false = true ∧ wordsOf u = e.words ∧
      insideDefinition.blocks.endsAnswer t.kind = true := by
  have h : (insideDefinition.compileAnswer "f(1\n) + a[2]\nx \x7d\n").1 = .ok () := by
    decide +kernel
  obtain ⟨e, u, v, t, htokens, he, hwords, hend, -⟩ := compileAnswer_single h
  exact ⟨h, e, u, v, t, htokens, he, hwords, hend⟩

/-- A semicolon ends an answer as well, and so does a brace where one is open. -/
theorem answers_cutOff :
    ((new {}).compileAnswer "1;2\n").1 = .ok () ∧
      (insideDefinition.compileAnswer "1 \x7d\n").1 = .ok () ∧
      ((new {}).compileAnswer "1 \x7d\n").1 ≠ .ok () := by
  decide +kernel

end Session

end DeskCalc
