import DeskCalc.Proofs.Compiles

/-!
# Operands that are compiled are operands of the grammar

The tokens that an operand is compiled from are the words of an operand of the grammar, and its
code is what was written (`operand_sound`).

Operands nest through subscripts and arguments. How these are compiled is a parameter, of which
`SoundSub n` is known as long as fewer than `n` tokens are left.
-/

namespace DeskCalc.Compile

variable {p₀ p : Pass} {u : List Token} {code : List Symbolic} {sub : Sub} {ctx : Context} {n : Nat}

/-- Nested expressions are compiled as the grammar has them, while fewer than `n` tokens are
left. -/
def SoundSub (n : Nat) (sub : Sub) : Prop :=
  ∀ ctx ends p, Pass.InOrder p → ctx.needsValue = true → ctx.printed = false →
    ctx.condition = false → p.upcoming.length < n →
    Ensures (sub ctx ends) p (fun _ q => ∃ e, p.Reads ctx.wholeArray e q) p.Refused

/-- A nested expression, on the way from `p₀` and behind its first token. -/
theorem sub_sound {Q : Unit → Pass → Prop} (hsub : SoundSub n sub) (hp₀ : p₀.InOrder)
    (hn : p₀.upcoming.length ≤ n) (h : p₀.Compiles u code p) (hu : u ≠ []) {array : Bool}
    {ends : Ends}
    (hQ : ∀ (e : Expr) v q, e.wellFormed array = true →
      (p₀.strictness = .strict → comparisons e.words = 0) → wordsOf v = e.words →
      p.Compiles v e.postorder q → Q () q) :
    Ensures (sub (ctx.inner array) ends) p Q p₀.Refused := by
  have hlt : p.upcoming.length < n := by
    have := h.length_eq
    have := List.length_pos_iff.2 hu
    omega
  refine (hsub _ ends p (h.inOrder hp₀) rfl rfl rfl hlt).mono ?_ fun e q he => h.refused he
  rintro - q ⟨e, he⟩
  obtain ⟨v, hv, hc⟩ := he.compiles
  exact hQ e v q he.wellFormed (h.strictness_eq ▸ he.spare) hv hc

/-! ## Operands -/

theorem number_sound {a : Bool} (hp : p.InOrder) (hk : p.token.kind = .number) :
    Ensures number p (fun _ q => p.ReadsLeaf a (.number p.token.text) q) p.Refused := by
  have hwords : wordsOf [p.token] = [(.number, p.token.text)] := by
    simp [wordsOf, Token.word, hk]
  have hmove (q : Pass) (hq : p.Compiles [] (Expr.number p.token.text).postorder q)
      (hr : q.rest = p.rest) :
      Ensures advance q (fun _ r => p.ReadsLeaf a (.number p.token.text) r)
        p.Refused := by
    have ht : q.token = p.token := (List.cons.inj hr).1
    refine advance_sound hp hq (by simp [ht, hk]) fun r hr _ => ?_
    exact ⟨⟨rfl, fun _ => rfl, _, by simpa [ht, Expr.words] using hwords, hr⟩, rfl,
      by simp [Expr.isWhole]⟩
  simp only [number, ensures_bind, ensures_get, ensures_ite]
  simp only [Expr.postorder] at hmove
  split
  · next h0 =>
    exact emit_step hp (.refl hp) rfl fun q hq hr => hmove q (by simpa [h0] using hq) hr
  · next h0 =>
    split
    · next h1 =>
      exact emit_step hp (.refl hp) rfl fun q hq hr => hmove q (by simpa [h1] using hq) hr
    · next h1 =>
      refine intern_sound hp (.refl hp) (.constant _) fun i q hq hr hi => ?_
      refine emitWith_step hp hq rfl (s := .number (digits p.token.text)) ⟨i, rfl, hi⟩ ?_
      intro r hc hr'
      exact hmove r (by simpa [h0, h1] using hc) (hr'.trans hr)

theorem string_sound {a : Bool} (hp : p.InOrder) (hk : p.token.kind = .string) :
    Ensures string p (fun _ q => p.ReadsLeaf a (.string p.token.text) q) p.Refused := by
  simp only [string, ensures_bind, ensures_get]
  refine intern_sound hp (.refl hp) (.constant _) fun i q hq hr hi => ?_
  refine emitWith_step hp hq rfl (s := .string p.token.contents) ⟨i, rfl, hi⟩ ?_
  intro q' hq' hr'
  have ht : q'.token = p.token := (List.cons.inj (hr'.trans hr)).1
  refine advance_sound hp hq' (by simp [ht, hk]) fun r hr _ => ?_
  refine ⟨⟨rfl, fun _ => rfl, _, ?_, hr⟩, rfl, by simp [Expr.isWhole]⟩
  simp [ht, wordsOf, Token.word, hk, Expr.words]

/-- What the arguments of a call have come to. -/
def ArgumentsRead (p : Pass) (es : List Expr) (comma : Bool) (q : Pass) : Prop :=
  Expr.allWellFormed es = true ∧ (p.strictness = .strict → comparisons (Expr.wordsOfAll es) = 0) ∧
    ∃ u, p.Compiles u (Expr.postorderOfAll es) q ∧
      wordsOf u = Expr.wordsOfAll es ++ (if comma then [Symbol.word .comma] else [])

theorem callArguments_sound (hsub : SoundSub n sub) (hp : p.InOrder) (hn : p.upcoming.length < n) :
    Ensures (callArguments sub ctx) p
      (fun count q => q.token.kind = .symbol .rightParen ∧
        ∃ es, count = es.length ∧ ArgumentsRead p es false q) p.Refused := by
  -- behind an argument there is a comma, which was read, or the closing parenthesis
  refine ensures_perToken (fun s q => ∃ es, s.1 = es.length ∧ ArgumentsRead p es s.2 q ∧
      (if s.2 then es ≠ [] else es = [] ∨ q.token.kind = .symbol .rightParen)) ?_
    ⟨[], rfl, ⟨rfl, fun _ => rfl, [], .refl hp, rfl⟩, .inl rfl⟩
  rintro ⟨count, comma⟩ q ⟨es, rfl, ⟨hes, hspare, u, hu, hwords⟩, hlast⟩
  simp only [argumentStep, ensures_bind, ensures_isAt, ensures_ite, ensures_pure, beq_iff_eq]
  split
  · next hclose =>
    split
    · exact unexpected_sound hp hu
    · next hcomma =>
      rw [Bool.not_eq_true] at hcomma
      subst hcomma
      exact ⟨hclose, es, rfl, hes, hspare, u, hu, hwords⟩
  · next hclose =>
    have hlt : q.upcoming.length < n := by
      have := hu.length_eq
      omega
    refine (hsub _ _ q (hu.inOrder hp) rfl rfl rfl hlt).mono ?_ fun e r he => hu.refused he
    rintro - r ⟨e, he⟩
    obtain ⟨v, hv, hc⟩ := he.compiles
    have hlen := he.length_lt
    have hall := hu.trans hc
    rw [← Expr.postorderOfAll_concat] at hall
    have he' : e.wellFormed true = true := he.wellFormed
    have hwf : Expr.allWellFormed (es ++ [e]) = true := by
      simp [hes, he', Expr.allWellFormed]
    have hw : wordsOf (u ++ v) = Expr.wordsOfAll (es ++ [e]) := by
      rw [wordsOf_append, hwords, hv]
      cases comma with
      | true => simp [Expr.wordsOfAll_concat hlast]
      | false =>
        rcases hlast with rfl | hlast
        · simp [Expr.wordsOfAll]
        · exact absurd hlast hclose
    have hsparse (hstrict : p.strictness = .strict) :
        comparisons (Expr.wordsOfAll (es ++ [e])) = 0 := by
      rw [← hw, wordsOf_append, hwords, hv, comparisons_append, comparisons_append, hspare hstrict,
        he.spare (hu.strictness_eq.trans hstrict)]
      cases comma <;> rfl
    split
    · next hcomma =>
      refine advance_sound hp hall (by simp [hcomma]) fun s hs _ => ?_
      refine ⟨⟨es ++ [e], by simp, ⟨hwf, hsparse, _, hs, ?_⟩, by simp⟩, ?_⟩
      · rw [wordsOf_append, hw, wordsOf_symbol hcomma]
        rfl
      · have := hs.length_eq
        have := hu.length_eq
        simp only [List.length_append, List.length_singleton] at *
        omega
    · split
      · next hparen =>
        exact ⟨⟨es ++ [e], by simp, ⟨hwf, hsparse, _, hall, by simpa using hw⟩, .inr hparen⟩, hlen⟩
      · exact unexpected_sound hp hall

theorem call_sound (hsub : SoundSub n sub) (hp₀ : p₀.InOrder) (hn : p₀.upcoming.length ≤ n)
    {t : Token} (h : p₀.Compiles [t] [] p) (ht : t.kind = .name)
    (hk : p.token.kind = .symbol .leftParen) :
    Ensures (call sub ctx t) p
      (fun _ q => ∃ args, p₀.ReadsLeaf ctx.wholeArray (.call t.text args) q) p₀.Refused := by
  simp only [call, ensures_bind]
  refine advance_sound hp₀ h (by simp [hk]) fun q hq _ => ?_
  have hlt : q.upcoming.length < n := by
    have := hq.length_eq
    simp only [List.length_append, List.length_singleton] at this
    omega
  refine (callArguments_sound hsub (hq.inOrder hp₀) hlt).mono ?_ fun _ _ he => hq.refused he
  rintro count r ⟨hclose, es, rfl, hes, hspare, v, hv, hwords⟩
  have hr := hq.trans hv
  refine intern_sound hp₀ hr (.function _) fun id s hs hrest hid => ?_
  obtain ⟨g, hg, hname⟩ := hid
  refine emitWith_step hp₀ hs rfl (s := .call es.length t.text) ⟨id, g, rfl, hg, hname⟩ ?_
  intro s' hs' hrest'
  have htoken : s'.token = r.token := (List.cons.inj (hrest'.trans hrest)).1
  refine advance_sound hp₀ hs' (by simp [htoken, hclose]) fun z hz _ => ?_
  rw [hq.strictness_eq] at hspare
  refine ⟨es, ⟨hes, fun hstrict => ?_, _, ?_, hz⟩, rfl, by simp [Expr.isWhole]⟩
  · simp [Expr.words, hspare hstrict, Token.Kind.compares]
  simp [htoken, wordsOf_name ht, wordsOf_symbol hk, wordsOf_symbol hclose, hwords, Expr.words]

theorem wholeArray_sound (hp₀ : p₀.InOrder) (h : p₀.Compiles u [] p) {t : Token} {index : Nat}
    (hu : wordsOf u = [(.name, t.text), Symbol.word .leftBracket])
    (hk : p.token.kind = .symbol .rightBracket)
    (hindex : p.program.arrays.get? index = some t.text) :
    Ensures (wholeArray ctx t index) p
      (fun _ q => p₀.ReadsLeaf ctx.wholeArray (.whole t.text) q) p₀.Refused := by
  simp only [wholeArray, ensures_ite, ensures_bind, ensures_isAt, Bool.or_eq_true, beq_iff_eq]
  split
  · next harray =>
    refine advance_sound hp₀ h (by simp [hk]) fun q hq hprogram => ?_
    split
    · next hend =>
      refine emitWith_step hp₀ hq rfl (s := .array t.text) ⟨index, rfl, hprogram ▸ hindex⟩ ?_
      intro r hr hrest
      have htoken : r.token = q.token := (List.cons.inj hrest).1
      refine ⟨⟨by simpa [Expr.wellFormed] using harray, fun _ => rfl, _, ?_, hr⟩, rfl,
        fun _ => htoken ▸ hend⟩
      simp [hu, wordsOf_symbol hk, Expr.words, Expr.wholeWords]
    · exact refuse_sound hp₀ hq
  · exact refuse_sound hp₀ h

theorem named_sound (hsub : SoundSub n sub) (hp : p.InOrder) (hn : p.upcoming.length ≤ n)
    (hk : p.token.kind = .name) {calls : Bool} :
    Ensures (named sub ctx calls) p
      (fun b q => ∃ e, p.ReadsLeaf ctx.wholeArray e q ∧ b = e.isTarget ∧
        (calls = false → e.isTarget = true ∨ e.isWhole = true)) p.Refused := by
  simp only [named, behindName, ensures_bind, ensures_get]
  refine advance_sound hp (.refl hp) (by simp [hk]) fun q hq _ => ?_
  rw [List.nil_append] at hq
  simp only [ensures_kind]
  split
  · next hopen =>
    -- a subscript or nothing between brackets
    simp only [ensures_bind]
    refine advance_sound hp hq (by simp [hopen]) fun q₁ hq₁ _ => ?_
    have hwords : wordsOf ([p.token] ++ [q.token]) =
        [(.name, p.token.text), Symbol.word .leftBracket] := by
      simp [wordsOf_name hk, wordsOf_symbol hopen]
    refine intern_sound hp hq₁ (.array _) fun index q₂ hq₂ _ hindex => ?_
    simp only [ensures_isAt, ensures_ite, beq_iff_eq, ensures_bind, ensures_pure]
    split
    · next hclose =>
      refine (wholeArray_sound hp hq₂ hwords hclose hindex).imp ?_
      exact fun _ r hr => ⟨_, hr, rfl, fun _ => .inr rfl⟩
    · refine sub_sound hsub hp hn hq₂ (by simp) fun e v q₃ he hspare hv hq₃ => ?_
      obtain ⟨is, his, -⟩ := hq₃.progress
      refine expect_sound hp (hq₂.trans hq₃) (by simp) fun hclose q₄ hq₄ hprogram => ?_
      refine emitWith_step hp hq₄ rfl (s := .elem p.token.text)
        ⟨index, rfl, hprogram ▸ his.program.arrays _ _ hindex⟩ fun r hr _ => ?_
      refine ⟨.elem p.token.text e, ⟨⟨he, fun hstrict => ?_, _, ?_, hr⟩, rfl,
        by simp [Expr.isWhole]⟩, rfl, fun _ => .inl rfl⟩
      · simp [Expr.words, hspare hstrict, Token.Kind.compares]
      rw [wordsOf_append, wordsOf_append, hwords, hv, wordsOf_symbol hclose]
      simp [Expr.words]
  · next hopen =>
    simp only [ensures_ite, ensures_bind, ensures_pure]
    split
    · next hcalls =>
      refine (call_sound hsub hp hn hq hk hopen).imp ?_
      rintro - r ⟨args, hr⟩
      exact ⟨_, hr, rfl, by simp [hcalls]⟩
    · exact unexpected_sound hp hq
  · simp only [ensures_bind, ensures_pure]
    refine intern_sound hp hq (.var _) fun index q₂ hq₂ _ hindex => ?_
    refine emitWith_step hp hq₂ rfl (s := .var p.token.text) ⟨index, rfl, hindex⟩ fun r hr _ => ?_
    refine ⟨.var p.token.text, ⟨⟨rfl, fun _ => rfl, _, ?_, hr⟩, rfl, by simp [Expr.isWhole]⟩, rfl,
      fun _ => .inl rfl⟩
    simp [wordsOf_name hk, Expr.words]

theorem query_sound {a : Bool} (hp : p.InOrder) {f : Query}
    (hk : p.token.kind = .keyword (.query f)) :
    Ensures (query f) p (fun _ q => p.ReadsLeaf a (.query f) q) p.Refused := by
  simp only [query, ensures_bind, ensures_get]
  refine advance_sound hp (.refl hp) (by simp [hk]) fun q hq _ => ?_
  refine expect_sound hp hq (by simp) fun hopen r hr _ => ?_
  simp only [ensures_isAt, ensures_ite, beq_iff_eq]
  split
  · next hclose =>
    simp only [ensures_bind]
    refine advance_sound hp hr (by simp [hclose]) fun s hs _ => ?_
    refine emit_step hp hs rfl fun z hz _ => ?_
    refine ⟨⟨rfl, fun _ => rfl, _, ?_, hz⟩, rfl, by simp [Expr.isWhole]⟩
    simp [wordsOf_keyword hk, wordsOf_symbol hopen, wordsOf_symbol hclose, Expr.words]
  · exact refuse_sound hp hr

/-- The arguments of a builtin. Of a single one it is known what it is. -/
theorem builtinArguments_sound (hsub : SoundSub n sub) (hp : p.InOrder)
    (hn : p.upcoming.length < n) (hctx : ctx.needsValue = true) (hprint : ctx.printed = false)
    (hcondition : ctx.condition = false) :
    Ensures (builtinArguments sub ctx) p
      (fun count q => ∃ u code, p.Compiles u code q ∧ (count = 1 → ∃ e : Expr,
        e.wellFormed ctx.wholeArray = true ∧ (p.strictness = .strict → comparisons e.words = 0) ∧
          code = e.postorder ∧ wordsOf u = e.words ++ [Symbol.word .rightParen])) p.Refused := by
  have hloop : Ensures (perToken (builtinStep sub ctx) 0) p
      (fun count q => ∃ u code, p.Compiles u code q ∧ (count = 1 → ∃ e : Expr,
        e.wellFormed ctx.wholeArray = true ∧ (p.strictness = .strict → comparisons e.words = 0) ∧
          code = e.postorder ∧ wordsOf u = e.words)) p.Refused := by
    -- before the first argument nothing has been read
    refine ensures_perToken (fun count q => ∃ u code, p.Compiles u code q ∧
      (count = 0 → u = [] ∧ code = [])) ?_ ⟨[], [], .refl hp, fun _ => ⟨rfl, rfl⟩⟩
    rintro count q ⟨u, code, hq, hstart⟩
    have hlt : q.upcoming.length < n := by
      have := hq.length_eq
      omega
    simp only [builtinStep, ensures_bind, ensures_isAt, ensures_ite, ensures_pure, beq_iff_eq]
    refine (hsub _ _ q (hq.inOrder hp) hctx hprint hcondition hlt).mono ?_
      fun _ _ he => hq.refused he
    rintro - r ⟨e, he⟩
    obtain ⟨v, hv, hr⟩ := he.compiles
    have hlen := he.length_lt
    split
    · next hcomma =>
      refine advance_sound hp (hq.trans hr) (by simp [hcomma]) fun s hs _ => ?_
      refine ⟨⟨_, _, hs, by simp⟩, ?_⟩
      have h₁ := hs.length_eq
      have h₂ := (hq.trans hr).length_eq
      simp only [List.length_append, List.length_singleton] at h₁ h₂
      omega
    · refine ⟨_, _, hq.trans hr, fun hone =>
        ⟨e, he.wellFormed, hq.strictness_eq ▸ he.spare, ?_, ?_⟩⟩
      · simp [(hstart (by omega)).2]
      · simp [(hstart (by omega)).1, hv]
  simp only [builtinArguments, ensures_bind, ensures_isAt, ensures_ite, ensures_pure, beq_iff_eq]
  split
  · refine expect_sound hp (.refl hp) (by simp) fun hclose q hq _ => ⟨_, _, hq, by simp⟩
  · refine hloop.imp ?_
    rintro count q ⟨u, code, hq, hone⟩
    refine expect_sound hp hq (by simp) fun hclose r hr _ => ⟨_, _, hr, fun hcount => ?_⟩
    obtain ⟨e, he, hspare, hcode, hwords⟩ := hone hcount
    exact ⟨e, he, hspare, hcode, by rw [wordsOf_append, hwords, wordsOf_symbol hclose]; rfl⟩

theorem length_lt_of_compiles {q : Pass} (h : p.Compiles u code q) (hu : u ≠ [])
    (hn : p.upcoming.length ≤ n) : q.upcoming.length < n := by
  have := h.length_eq
  have := List.length_pos_iff.2 hu
  omega

theorem unary_sound (hsub : SoundSub n sub) (hp : p.InOrder) (hn : p.upcoming.length ≤ n)
    {f : Unary} (hk : p.token.kind = .keyword (.unary f)) :
    Ensures (unary sub ctx f) p
      (fun _ q => ∃ e, p.ReadsLeaf ctx.wholeArray (.unary f e) q) p.Refused := by
  simp only [unary, ensures_bind, ensures_get]
  refine advance_sound hp (.refl hp) (by simp [hk]) fun q hq _ => ?_
  refine expect_sound hp hq (by simp) fun hopen r hr _ => ?_
  refine (builtinArguments_sound hsub (hr.inOrder hp) (length_lt_of_compiles hr (by simp) hn)
    rfl rfl rfl).mono ?_ fun _ _ he => hr.refused he
  rintro count s ⟨v, code, hs, hone⟩
  simp only [ensures_ite]
  split
  · next hcount =>
    obtain ⟨e, he, hspare, rfl, hwords⟩ := hone hcount
    rw [hr.strictness_eq] at hspare
    refine emit_step hp (hr.trans hs) (by cases f <;> rfl) fun z hz _ => ?_
    refine ⟨e, ⟨he, fun hstrict => ?_, _, ?_, by simpa [Expr.postorder] using hz⟩, rfl,
      by simp [Expr.isWhole]⟩
    · simp [Expr.words, hspare hstrict, Token.Kind.compares]
    simp [wordsOf_keyword hk, wordsOf_symbol hopen, hwords, Expr.words]
  · exact refuse_sound hp (hr.trans hs)

theorem scale_sound (hsub : SoundSub n sub) (hp : p.InOrder) (hn : p.upcoming.length ≤ n)
    (hk : p.token.kind = .keyword (.setting .scale)) :
    Ensures (scale sub ctx) p
      (fun b q => ∃ e, p.ReadsLeaf ctx.wholeArray e q ∧ b = e.isTarget) p.Refused := by
  simp only [scale, ensures_bind, ensures_get]
  refine advance_sound hp (.refl hp) (by simp [hk]) fun q hq _ => ?_
  simp only [ensures_isAt, ensures_ite, ensures_bind, ensures_pure, beq_iff_eq]
  split
  · next hopen =>
    refine advance_sound hp hq (by simp [hopen]) fun r hr _ => ?_
    refine (builtinArguments_sound hsub (hr.inOrder hp) (length_lt_of_compiles hr (by simp) hn)
      rfl rfl rfl).mono ?_ fun _ _ he => hr.refused he
    rintro count s ⟨v, code, hs, hone⟩
    split
    · next hcount =>
      obtain ⟨e, he, hspare, rfl, hwords⟩ := hone hcount
      rw [hr.strictness_eq] at hspare
      refine emit_step hp (hr.trans hs) rfl fun z hz _ => ?_
      refine ⟨.scaleOf e, ⟨⟨he, fun hstrict => ?_, _, ?_, by simpa [Expr.postorder] using hz⟩, rfl,
        by simp [Expr.isWhole]⟩, rfl⟩
      · simp [Expr.words, hspare hstrict, Token.Kind.compares]
      simp [wordsOf_keyword hk, wordsOf_symbol hopen, hwords, Expr.words]
    · exact refuse_sound hp (hr.trans hs)
  · refine emit_step hp hq rfl fun z hz _ => ?_
    refine ⟨.setting .scale, ⟨⟨rfl, fun _ => rfl, _, ?_, hz⟩, rfl, by simp [Expr.isWhole]⟩, rfl⟩
    simp [wordsOf_keyword hk, Expr.words]

/-- The array of a remainder. -/
theorem remainderArray_sound (hp : p.InOrder) :
    Ensures remainderArray p
      (fun index q => ∃ u name, p.Compiles u [] q ∧ wordsOf u = Expr.wholeWords name ∧
        q.program.arrays.get? index = some name) p.Refused := by
  simp only [remainderArray, ensures_bind, ensures_get, ensures_ite]
  split
  · next hk =>
    refine advance_sound hp (.refl hp) (by simp [hk]) fun q hq _ => ?_
    simp only [ensures_isAt, beq_iff_eq]
    split
    · next hopen =>
      refine advance_sound hp hq (by simp [hopen]) fun r hr _ => ?_
      split
      · next hclose =>
        refine advance_sound hp hr (by simp [hclose]) fun s hs _ => ?_
        refine intern_sound hp hs (.array _) fun index z hz _ hindex => ?_
        refine ⟨_, p.token.text, hz, ?_, hindex⟩
        simp [wordsOf_name hk, wordsOf_symbol hopen, wordsOf_symbol hclose, Expr.wholeWords]
      · exact refuse_sound hp hr
    · exact refuse_sound hp hq
  · exact refuse_sound hp (.refl hp)

theorem argumentAndComma_sound (hsub : SoundSub n sub) (hp₀ : p₀.InOrder)
    (hn : p₀.upcoming.length ≤ n) (h : p₀.Compiles u code p) (hu : u ≠ []) {t : Token}
    {Q : Unit → Pass → Prop}
    (hQ : ∀ (e : Expr) v q, e.wellFormed false = true →
      (p₀.strictness = .strict → comparisons e.words = 0) →
      wordsOf v = e.words ++ [Symbol.word .comma] →
      p₀.Compiles (u ++ v) (code ++ e.postorder) q → Q () q) :
    Ensures (argumentAndComma sub ctx t) p Q p₀.Refused := by
  simp only [argumentAndComma, ensures_bind, ensures_isAt, ensures_ite, beq_iff_eq]
  refine sub_sound hsub hp₀ hn h hu fun e v q he hspare hv hq => ?_
  split
  · next hcomma =>
    refine advance_sound hp₀ (h.trans hq) (by simp [hcomma]) fun r hr _ => ?_
    refine hQ e (v ++ [q.token]) r he hspare ?_ (by simpa using hr)
    rw [wordsOf_append, hv, wordsOf_symbol hcomma]
    rfl
  · exact refuse_sound hp₀ (h.trans hq)

theorem ternary_sound (hsub : SoundSub n sub) (hp : p.InOrder) (hn : p.upcoming.length ≤ n)
    {f : Ternary} (hk : p.token.kind = .keyword (.ternary f)) :
    Ensures (ternary sub ctx f) p
      (fun _ q => ∃ e, p.ReadsLeaf ctx.wholeArray e q ∧ e.isTarget = false) p.Refused := by
  simp only [ternary, ensures_bind, ensures_get]
  refine advance_sound hp (.refl hp) (by simp [hk]) fun q₁ hq₁ _ => ?_
  refine expect_sound hp hq₁ (by simp) fun hopen q₂ hq₂ _ => ?_
  refine argumentAndComma_sound hsub hp hn hq₂ (by simp) fun a v q₃ ha hspare hv hq₃ => ?_
  refine argumentAndComma_sound hsub hp hn hq₃ (by simp) fun b w q₄ hb hspare' hw hq₄ => ?_
  have hmove {s : Pass} {x : List Token} {code : List Symbolic} {e : Expr}
      (hs : p.Compiles x code s) (hclose : s.token.kind = .symbol .rightParen)
      (he : e.wellFormed ctx.wholeArray = true)
      (hs' : p.strictness = .strict → comparisons e.words = 0) (hleaf : e.isLeaf = true)
      (hwhole : e.isWhole = false) (htarget : e.isTarget = false) (hcode : code = e.postorder)
      (hx : wordsOf x ++ [Symbol.word .rightParen] = e.words) :
      Ensures advance s
        (fun _ q => ∃ e, p.ReadsLeaf ctx.wholeArray e q ∧ e.isTarget = false) p.Refused := by
    refine advance_sound hp hs (by simp [hclose]) fun z hz _ => ?_
    refine ⟨e, ⟨⟨he, hs', _, ?_, hcode ▸ hz⟩, hleaf, by simp [hwhole]⟩, htarget⟩
    rw [wordsOf_append, wordsOf_symbol hclose]
    exact hx
  cases f with
  | divmod =>
    simp only [ensures_bind]
    refine (remainderArray_sound (hq₄.inOrder hp)).mono ?_ fun _ _ he => hq₄.refused he
    rintro index q₅ ⟨x, name, hx, hwords, hindex⟩
    simp only [ensures_isAt, ensures_ite, ensures_bind, beq_iff_eq]
    split
    · next hclose =>
      refine storeRemainder_step ((hq₄.trans hx).inOrder hp) hindex fun r hr hrest => ?_
      refine hmove (e := .divmod a b name) ((hq₄.trans hx).trans hr) ?_
        (by simp [Expr.wellFormed, ha, hb]) (fun hstrict => ?_) rfl rfl rfl
        (by simp [Expr.postorder]) ?_
      · rw [(List.cons.inj hrest).1, hclose]
      · simp [Expr.words, Expr.wholeWords, hspare hstrict, hspare' hstrict, Token.Kind.compares]
      · simp [wordsOf_keyword hk, wordsOf_symbol hopen, hv, hw, hwords, Expr.words]
    · exact refuse_sound hp (hq₄.trans hx)
  | modexp =>
    simp only [ensures_bind, ensures_isAt, ensures_ite, beq_iff_eq]
    refine sub_sound hsub hp hn hq₄ (by simp) fun c x q₅ hc hlast hx hq₅ => ?_
    split
    · next hclose =>
      refine emit_step hp (hq₄.trans hq₅) rfl fun r hr hrest => ?_
      refine hmove (e := .modexp a b c) hr ?_ (by simp [Expr.wellFormed, ha, hb, hc])
        (fun hstrict => ?_) rfl rfl rfl (by simp [Expr.postorder]) ?_
      · rw [(List.cons.inj hrest).1, hclose]
      · simp [Expr.words, hspare hstrict, hspare' hstrict, hlast hstrict, Token.Kind.compares]
      · simp [wordsOf_keyword hk, wordsOf_symbol hopen, hv, hw, hx, Expr.words]
    · exact refuse_sound hp (hq₄.trans hq₅)

/-- **An operand that is compiled is one of the grammar.** -/
theorem operand_sound (hsub : SoundSub n sub) (hp : p.InOrder) (hn : p.upcoming.length ≤ n) :
    Ensures (operand sub ctx) p
      (fun b q => ∃ e, p.ReadsLeaf ctx.wholeArray e q ∧ b = e.isTarget) p.Refused := by
  simp only [operand, ensures_bind, ensures_kind]
  split
  · next hk =>
    refine (number_sound (a := ctx.wholeArray) hp hk).bind ?_ fun _ _ => id
    exact fun _ q hq => (ensures_pure _).2 ⟨_, hq, rfl⟩
  · next hk =>
    refine (string_sound (a := ctx.wholeArray) hp hk).bind ?_ fun _ _ => id
    exact fun _ q hq => (ensures_pure _).2 ⟨_, hq, rfl⟩
  · next hk =>
    refine (named_sound hsub hp hn hk).imp ?_
    rintro b q ⟨e, he, hb, -⟩
    exact ⟨e, he, hb⟩
  · next hk => exact scale_sound hsub hp hn hk
  · next s _ hk =>
    simp only [ensures_bind, ensures_pure]
    refine emit_step hp (.refl hp) rfl fun q hq hr => ?_
    have ht : q.token = p.token := (List.cons.inj hr).1
    refine advance_sound hp hq (by simp [ht, hk]) fun r hr _ => ?_
    refine ⟨.setting s, ⟨⟨rfl, fun _ => rfl, _, ?_, hr⟩, rfl, by simp [Expr.isWhole]⟩, rfl⟩
    simp [ht, wordsOf_keyword hk, Expr.words]
  · next f hk =>
    refine (unary_sound hsub hp hn hk).bind ?_ fun _ _ => id
    rintro - q ⟨e, he⟩
    exact (ensures_pure _).2 ⟨_, he, rfl⟩
  · next f hk =>
    simp only [ensures_ite]
    split
    · exact refused_refl hp _
    · refine (query_sound (a := ctx.wholeArray) hp hk).bind ?_ fun _ _ => id
      exact fun _ q hq => (ensures_pure _).2 ⟨_, hq, rfl⟩
  · next f hk =>
    refine (ternary_sound hsub hp hn hk).bind ?_ fun _ _ => id
    rintro - q ⟨e, he, htarget⟩
    exact (ensures_pure _).2 ⟨e, he, htarget.symm⟩
  · exact unexpected_sound hp (.refl hp)

end DeskCalc.Compile
