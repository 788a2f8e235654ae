import DeskCalc.Proofs.Calls
import DeskCalc.Proofs.Positions

/-!
# Calls never fail by themselves

The compiler counts while it reads: the values, parentheses and comparisons of an expression, the
arguments of a call, the parameters and the other locals of a function. Each repetition of the loop
that counts moves past a token, so that a count is never larger than the number of tokens, and these
are fewer than 2^32 if the bytes of the text are. The locals behind `auto` are counted with 31 bits,
which is enough because every one but the last has a comma behind it. `Pass.CountersFit` says this
of all loops that begin at a pass, with the number that the next repetition may come to.

Together with `Call.isRefusal` and `Scan.fits` it follows that no call on a session fails except by
refusing the source (`Session.calls_faultless`). Sizes of code and tables are those of lists that
are kept, so that nothing has to be counted there.
-/

namespace DeskCalc

namespace Compile

/-! ## Loops -/

/-- How the expressions inside an expression are compiled. -/
def nested {γ : Type} : List γ → Sub
  | [] => fun _ _ => throw (.fault .unbounded)
  | _ :: bound => fun ctx ends => do requireValue (← expressionAt bound ctx ends)

theorem expressionAt_eq {γ : Type} (bound : List γ) (ctx : Context) (ends : Ends) :
    expressionAt bound ctx ends = expressionWith (nested bound) ctx ends := by
  cases bound <;> rfl

theorem soundSub_nested {γ : Type} (bound : List γ) : SoundSub bound.length (nested bound) := by
  cases bound with
  | nil => exact fun _ _ _ _ _ _ _ hlt => absurd hlt (Nat.not_lt_zero _)
  | cons _ bound => exact soundSub_of_expressionAt bound fun hq hle => expressionAt_sound bound hq hle

end Compile

/-- The end of the text is behind every other token. -/
theorem Pass.InOrder.upcoming_pos {p : Pass} (hp : p.InOrder) (hk : p.token.kind ≠ .eof) :
    0 < p.upcoming.length := by
  obtain ⟨t, hlast, ht⟩ := hp.ended
  refine List.length_pos_iff.2 fun hnil => hk ?_
  simp only [Pass.rest, hnil, List.map_nil, List.getLast?_singleton, Option.some.injEq] at hlast
  exact hlast ▸ ht

/-- The locals behind `auto` are counted below this bound. -/
def autoBound : Nat := 2147483648

open Compile in
/-- The counters of every loop that begins at this pass are numbers of 64 bits, those of `auto` of
31 bits, and there is room for one more. -/
structure Pass.CountersFit (p : Pass) : Prop where
  /-- The values, parentheses and comparisons of an expression. A parenthesis is taken off the count
  only where one is open, and the operators of the expressions around it stay on the stack. -/
  expression : ∀ (bound : List Reading) (ctx₀ ctx : Context) (t : Tally) (q : Pass),
    p.upcoming.length ≤ bound.length →
    Repeats (turnStep (nested bound) p.operators.length) (ctx₀, {}) p (ctx, t) q →
    t.values + 1 < wordBound ∧ t.parens + 1 < wordBound ∧ t.relations + 1 < wordBound ∧
      p.operators.length ≤ q.operators.length ∧
      ∀ t' r, closeParen p.operators.length t q = .ok (.more t') r → t'.parens + 1 = t.parens
  arguments : ∀ (bound : List Reading) (ctx : Context) (count : Nat) (comma : Bool) (q : Pass),
    p.upcoming.length < bound.length →
    Repeats (argumentStep (nested bound) ctx) (0, false) p (count, comma) q →
    count + 1 < wordBound
  builtin : ∀ (bound : List Reading) (ctx : Context) (array : Bool) (count : Nat) (q : Pass),
    p.upcoming.length < bound.length →
    Repeats (builtinStep (nested bound) (ctx.inner array)) 0 p count q → count + 1 < wordBound
  /-- The parameters of a function that had none. -/
  parameters : ∀ (f : Function) (comma : Bool) (q : Pass),
    p.program.function? p.target = some f → f.nparams = 0 →
    Repeats parameterStep false p comma q →
    ∃ g, q.program.function? q.target = some g ∧ g.nparams + 1 < wordBound
  /-- The locals behind the word `auto`. One more is counted only at a name with a comma before
  it. -/
  autos : ∀ (p₁ : Pass) (count : Nat) (comma : Bool) (q : Pass),
    p.token.kind = .keyword .autoDecl → advance p = .ok () p₁ →
    Repeats autoStep (0, false) { p₁ with autoAllowed := false } (count, comma) q →
    count < autoBound ∧
      (q.token.kind = .name → count = 0 ∨ comma = true → count + 1 < autoBound)

/-- No count grows by more than one. -/
structure Tally.UpToOne (t t' : Tally) : Prop where
  values : t'.values ≤ t.values + 1
  parens : t'.parens ≤ t.parens + 1
  relations : t'.relations ≤ t.relations + 1

theorem Tally.UpToOne.of_le {t t' t'' : Tally} (h : t.UpToOne t')
    (h' : t''.values ≤ t'.values ∧ t''.parens = t'.parens ∧ t''.relations = t'.relations) :
    t.UpToOne t''.operator :=
  ⟨h'.1.trans h.values, h'.2.1.trans_le h.parens, h'.2.2.trans_le h.relations⟩

namespace Compile

variable {p q : Pass} {sub : Sub} {ctx : Context} {n : Nat} {t : Tally} {count base : Nat}
  {comma : Bool}

/-! ## Expressions -/

theorem ensures_any {α : Type} (m : Compile α) (p : Pass) :
    Ensures m p (fun _ _ => True) (fun _ _ => True) := by
  unfold Ensures
  split <;> trivial

/-- Whatever comes first, the answer is known of the rest. -/
theorem ensures_then {α β : Type} {m : Compile β} {f : β → Compile α} {Q : α → Prop}
    (h : ∀ b q, Ensures (f b) q (fun a _ => Q a) (fun _ _ => True)) :
    Ensures (m >>= f) p (fun a _ => Q a) (fun _ _ => True) :=
  (ensures_any m p).bind (fun b q _ => h b q) fun _ _ _ => trivial

/-- The arguments of a call end at its closing parenthesis. -/
theorem kind_of_callArguments (h : callArguments sub ctx p = .ok count q) :
    q.token.kind = .symbol .rightParen := by
  have hstep (state : Nat × Bool) (r : Pass) : Ensures (argumentStep sub ctx state) r
      (fun s q => ∀ count, s = .inr count → q.token.kind = .symbol .rightParen)
      (fun _ _ => True) := by
    simp only [argumentStep, ensures_bind, ensures_isAt, ensures_ite, ensures_pure]
    split
    · next hk => split <;> simp_all [ensures_unexpected]
    · refine (ensures_any _ _).mono (fun _ q _ => ?_) fun _ _ _ => trivial
      simp [ensures_unexpected, ensures_any]
  obtain ⟨state, r, hr⟩ := exists_of_iterate h
  exact (hstep state r).ok hr _ rfl

/-- The parameters end at their closing parenthesis. -/
theorem kind_of_parameters (h : parameters p = .ok () q) : q.token.kind = .symbol .rightParen := by
  have hstep (comma : Bool) (r : Pass) : Ensures (parameterStep comma) r
      (fun s q => ∀ u, s = .inr u → q.token.kind = .symbol .rightParen) (fun _ _ => True) := by
    simp only [parameterStep, ensures_bind, ensures_isAt, ensures_ite, ensures_pure]
    split
    · next hk => split <;> simp_all
    · refine (ensures_any _ _).mono (fun _ q _ => ?_) fun _ _ _ => trivial
      split
      · trivial
      · refine (ensures_any _ _).mono (fun _ q _ => ?_) fun _ _ _ => trivial
        simp
  obtain ⟨comma, r, hr⟩ := exists_of_iterate h
  exact (hstep comma r).ok hr _ rfl

theorem awaitOperand_upToOne {op : Operator} : Ensures (awaitOperand base op t) p
      (fun t' _ => t'.values ≤ t.values ∧ t'.parens = t.parens ∧ t'.relations = t.relations)
      (fun _ _ => True) := by
  refine ensures_then fun p q => ensures_then fun _ _ => ensures_then fun _ _ =>
    ensures_then fun _ _ => ?_
  exact ⟨Nat.sub_le _ _, rfl, rfl⟩

theorem stepBy_upToOne {up : Bool} :
    Ensures (stepBy sub ctx up t) p (fun t' _ => t.UpToOne t') (fun _ _ => True) := by
  refine ensures_then fun p q => ?_
  simp only [ensures_ite, ensures_refuse]
  split
  · trivial
  split
  · split
    · refine ensures_then fun _ _ => ensures_then fun _ _ => ?_
      exact ⟨Nat.le_succ _, Nat.le_succ _, Nat.le_succ _⟩
    · trivial
  · refine ensures_then fun _ _ => ensures_then fun _ _ => ensures_then fun _ _ =>
      ensures_then fun _ _ => ?_
    exact ⟨Nat.le_refl _, Nat.le_succ _, Nat.le_succ _⟩

/-- A parenthesis is closed where one is open. -/
theorem closeParen_parens : Ensures (closeParen base t) p (fun r _ => ∀ t', r = .more t' →
      t.UpToOne t' ∧ t'.parens + 1 = t.parens) (fun _ _ => True) := by
  refine ensures_then fun p q => ?_
  simp only [ensures_ite, ensures_refuseHere, ensures_pure]
  split
  · split
    · exact ensures_then fun _ _ => ensures_then fun _ _ => by simp
    · trivial
  split
  · split
    · simp
    · next hparens =>
      refine ensures_then fun _ _ => ?_
      simp only [ensures_ite, ensures_refuseHere]
      split
      · trivial
      · refine ensures_then fun _ _ => ensures_then fun _ _ => ?_
        rintro _ ⟨rfl⟩
        simp only [Tally.closeParen, Tally.apply]
        exact ⟨⟨by simp only; omega, by simp only; omega, Nat.le_succ _⟩, by omega⟩
  · trivial

theorem applyOperator_upToOne {op : Operator} :
    Ensures (applyOperator base op t) p (fun t' _ => t.UpToOne t') (fun _ _ => True) := by
  refine ensures_then fun _ _ => ?_
  simp only [ensures_ite, ensures_refuseHere]
  split
  · trivial
  split
  · trivial
  · have hrelation : t.UpToOne (if op.isRelational then { t with relations := t.relations + 1 }
        else t) := by
      split <;> constructor <;> simp
    refine awaitOperand_upToOne.bind ?_ fun _ _ _ => trivial
    exact fun t' q ht' => ensures_then fun _ _ => hrelation.of_le ht'

/-- **A token raises no count by more than one.** -/
theorem turn_upToOne :
    Ensures (turn sub base ctx t) p (fun r _ => ∀ t', r = .more t' → t.UpToOne t')
      (fun _ _ => True) := by
  have hmore {m : Compile Tally} {q : Pass}
      (hm : Ensures m q (fun t' _ => t.UpToOne t') (fun _ _ => True)) :
      Ensures (do return Turn.more (← m)) q (fun r _ => ∀ t', r = .more t' → t.UpToOne t')
        (fun _ _ => True) :=
    hm.bind (by rintro t' _ h _ ⟨rfl⟩; exact h) fun _ _ _ => trivial
  have hoperand (b : Bool) : t.UpToOne (t.operand b) :=
    ⟨Nat.le_refl _, Nat.le_succ _, Nat.le_succ _⟩
  refine ensures_then fun k q => ?_
  split
  · exact hmore stepBy_upToOne
  · exact hmore stepBy_upToOne
  · split
    · refine ensures_then fun _ _ => ensures_then fun _ _ => ?_
      rintro _ ⟨rfl⟩
      exact ⟨Nat.le_succ _, Nat.le_succ _, Nat.le_succ _⟩
    · trivial
  · split
    · refine awaitOperand_upToOne.bind ?_ fun _ _ _ => trivial
      rintro t' q ht'
      refine ensures_then fun _ _ => ?_
      rintro _ ⟨rfl⟩
      exact Tally.UpToOne.of_le ⟨Nat.le_succ _, Nat.le_succ _, Nat.le_succ _⟩ ht'
    · refine ensures_then fun _ _ => ensures_then fun _ _ => ?_
      rintro _ ⟨rfl⟩
      exact ⟨Nat.le_succ _, Nat.le_succ _, Nat.le_succ _⟩
  · split
    · trivial
    · refine ensures_then fun _ _ => ensures_then fun _ _ => ?_
      rintro _ ⟨rfl⟩
      exact ⟨Nat.le_succ _, Nat.le_refl _, Nat.le_succ _⟩
  · exact closeParen_parens.imp fun _ _ h t' ht' => (h t' ht').1
  · split
    · exact hmore applyOperator_upToOne
    · simp
  · refine ensures_then fun _ _ => ensures_then fun _ _ => ?_
    split
    · trivial
    · refine ensures_then fun b _ => ?_
      rintro _ ⟨rfl⟩
      exact hoperand b
  · split
    · split
      · trivial
      · refine ensures_then fun b _ => ?_
        rintro _ ⟨rfl⟩
        exact hoperand b
    · simp

/-- **In the middle of an expression.** The values, parentheses and comparisons are at most as many as
the tokens that were read. -/
theorem Repeats.partway (hp : p.InOrder) {bound : List Reading} {ctx₀ : Context}
    (hbound : p.upcoming.length ≤ bound.length)
    (h : Repeats (turnStep (nested bound) p.operators.length) (ctx₀, {}) p (ctx, t) q) :
    (t.values + q.upcoming.length ≤ p.upcoming.length ∧
      t.parens + q.upcoming.length ≤ p.upcoming.length ∧
      t.relations + q.upcoming.length ≤ p.upcoming.length) ∧
    ∃ fs x, Partway p ctx₀.wholeArray fs x t q := by
  have hkept := h.keeps (I := fun c q =>
    (c.2.values + q.upcoming.length ≤ p.upcoming.length ∧
      c.2.parens + q.upcoming.length ≤ p.upcoming.length ∧
      c.2.relations + q.upcoming.length ≤ p.upcoming.length) ∧
    ∃ fs x, Partway p ctx₀.wholeArray fs x c.2 q ∧
      (c.1.wholeArray = true → ctx₀.wholeArray = true ∧ fs = []))
    ⟨⟨by simp, by simp, by simp⟩, [], none, .start hp _, fun h => ⟨h, rfl⟩⟩ ?_
  · obtain ⟨hcounts, fs, x, hpart, -⟩ := hkept
    exact ⟨hcounts, fs, x, hpart⟩
  · rintro ⟨c, t⟩ q ⟨⟨hvalues, hparens, hrelations⟩, fs, x, hpart, hctx⟩
    simp only [turnStep, ensures_bind]
    have hle : q.upcoming.length ≤ bound.length := by omega
    refine ((turn_sound (soundSub_nested bound) hp hle hpart hctx).and turn_upToOne).mono ?_
      fun _ _ _ => trivial
    rintro (t' | t' | _) r ⟨hr, hone⟩
    · obtain ⟨⟨fs', x', hpart'⟩, hlt⟩ := hr
      obtain ⟨hv, hp', hr'⟩ := hone t' rfl
      have hcounts : t'.values + r.upcoming.length ≤ p.upcoming.length ∧
          t'.parens + r.upcoming.length ≤ p.upcoming.length ∧
          t'.relations + r.upcoming.length ≤ p.upcoming.length := by
        omega
      exact ⟨hcounts, fs', x', hpart', by simp⟩
    · trivial
    · trivial

theorem expression_fits (hp : p.InOrder) (hshort : p.upcoming.length < Scan.placeBound)
    (bound : List Reading) (ctx₀ : Context) (hbound : p.upcoming.length ≤ bound.length)
    (h : Repeats (turnStep (nested bound) p.operators.length) (ctx₀, {}) p (ctx, t) q) :
    t.values + 1 < wordBound ∧ t.parens + 1 < wordBound ∧ t.relations + 1 < wordBound ∧
      p.operators.length ≤ q.operators.length := by
  obtain ⟨hcounts, fs, x, hpart⟩ := h.partway hp hbound
  have hop : p.operators.length ≤ q.operators.length := by
    rw [hpart.operators, List.length_append]
    omega
  simp only [wordBound, Scan.placeBound] at *
  omega

/-! ## Arguments -/

/-- An argument takes a token. -/
theorem nested_shortens (bound : List Reading) (hp : p.InOrder)
    (hbound : p.upcoming.length < bound.length) {array : Bool} {ends : Ends} :
    Ensures (nested bound (ctx.inner array) ends) p
      (fun _ q => q.InOrder ∧ q.upcoming.length < p.upcoming.length) (fun _ _ => True) := by
  refine (soundSub_nested bound _ _ p hp rfl rfl rfl hbound).mono ?_ fun _ _ _ => trivial
  rintro - q ⟨e, he⟩
  obtain ⟨v, -, hv⟩ := he.compiles
  exact ⟨hv.inOrder hp, he.length_lt⟩

theorem advance_shortens (hp : p.InOrder) (hk : p.token.kind ≠ .eof) :
    Ensures advance p (fun _ q => q.InOrder ∧ q.upcoming.length + 1 = p.upcoming.length)
      (fun _ _ => True) := by
  refine (ensures_advance hp hk).mono ?_ fun _ _ _ => trivial
  rintro - q ⟨hq, -⟩
  exact ⟨hq.inOrder hp, hq.length_eq⟩

section

variable (hp : p.InOrder) (hshort : p.upcoming.length < Scan.placeBound) (bound : List Reading)
  (hbound : p.upcoming.length < bound.length)
include hp hshort bound hbound

theorem arguments_fit (h : Repeats (argumentStep (nested bound) ctx) (0, false) p (count, comma) q) :
    count + 1 < wordBound := by
  have hkept := h.keeps (I := fun c q => q.InOrder ∧
    c.1 + q.upcoming.length ≤ p.upcoming.length) ⟨hp, by simp⟩ ?_
  · simp only [wordBound, Scan.placeBound] at *
    omega
  · rintro ⟨count, comma⟩ q ⟨hq, hcount⟩
    simp only [argumentStep, ensures_bind, ensures_isAt, ensures_ite, ensures_pure]
    split
    · split
      · exact ensures_unexpected fun _ => trivial
      · trivial
    · refine (nested_shortens bound hq (by omega)).mono ?_ fun _ _ _ => trivial
      rintro - r ⟨hr, hlt⟩
      split
      · next hk =>
        refine (advance_shortens hr (by simp [beq_iff_eq.1 hk])).imp ?_
        rintro - z ⟨hz, hlt'⟩
        exact ⟨hz, by omega⟩
      · split
        · exact ⟨hr, by omega⟩
        · exact ensures_unexpected fun _ => trivial

theorem builtin_fits {array : Bool}
    (h : Repeats (builtinStep (nested bound) (ctx.inner array)) 0 p count q) :
    count + 1 < wordBound := by
  have hkept := h.keeps (I := fun count q => q.InOrder ∧
    count + q.upcoming.length ≤ p.upcoming.length) ⟨hp, by simp⟩ ?_
  · simp only [wordBound, Scan.placeBound] at *
    omega
  · rintro count q ⟨hq, hcount⟩
    simp only [builtinStep, ensures_bind, ensures_isAt, ensures_ite, ensures_pure]
    refine (nested_shortens bound hq (by omega)).mono ?_ fun _ _ _ => trivial
    rintro - r ⟨hr, hlt⟩
    split
    · next hk =>
      refine (advance_shortens hr (by simp [beq_iff_eq.1 hk])).imp ?_
      rintro - z ⟨hz, hlt'⟩
      exact ⟨hz, by omega⟩
    · trivial

end

/-! ## Parameters and locals -/

theorem parameters_fit (hp : p.InOrder) (hshort : p.upcoming.length < Scan.placeBound)
    {f : Function} (hf : p.program.function? p.target = some f) (hnone : f.nparams = 0)
    (h : Repeats parameterStep false p comma q) :
    ∃ g, q.program.function? q.target = some g ∧ g.nparams + 1 < wordBound := by
  have hkept := h.keeps (I := fun _ q => ∃ v g, g.nparams ≤ v.length ∧
    q.Midway none p v p.outline g []) ⟨[], f, by simp [hnone], .start hp hf⟩ ?_
  · obtain ⟨v, g, hle, hq⟩ := hkept
    have hlength := hq.toFrom.length_eq
    refine ⟨g, hq.function, ?_⟩
    simp only [wordBound, Scan.placeBound] at *
    omega
  · rintro comma q ⟨v, g, hle, hq⟩
    simp only [parameterStep, ensures_bind, ensures_isAt, ensures_function hq.function, ensures_ite,
      ensures_refuseHere, ensures_pure]
    split
    · split <;> trivial
    split
    · trivial
    · refine Ensures.mono (parameter_holds hq fun _ w r a l hw hr => ⟨v ++ w, _, ?_, hr⟩)
        (fun _ _ => id) fun _ _ _ => trivial
      have hpos := List.length_pos_iff.2 (Parameter.ne_nil_of_words hw)
      rw [List.length_append]
      show g.nparams + 1 ≤ _
      omega

theorem autos_fit (hp : p.InOrder) (hshort : p.upcoming.length < Scan.placeBound) {p₁ : Pass}
    (hk : p.token.kind = .keyword .autoDecl) (hadvance : advance p = .ok () p₁)
    (h : Repeats autoStep (0, false) { p₁ with autoAllowed := false } (count, comma) q) :
    count < autoBound ∧
      (q.token.kind = .name → count = 0 ∨ comma = true → count + 1 < autoBound) := by
  obtain ⟨f, hf⟩ := hp.function
  have hread := advance_holds (Q := fun _ q => q.Midway none p ([] ++ [p.token]) p.outline f [])
    (.start hp hf) (by simp [hk]) fun _ hq => hq
  have hkept := h.keeps (I := Pass.Listing none p p.token f) (.nil (hread.ok hadvance))
    fun state q hq => (autoStep_holds hq).mono ?_ fun _ _ _ => trivial
  · obtain ⟨v, as, ls, hv, rfl, hq⟩ := hkept
    -- a local takes two tokens, its name and the comma before it, and the first one its name
    have hwords := hv.length_le
    have hlength := hq.toFrom.length_eq
    simp only [autoBound, Scan.placeBound, List.length_cons] at *
    refine ⟨?_, fun hname hnext => ?_⟩
    · omega
    · have hpos := hq.inOrder.upcoming_pos (by simp [hname])
      rcases hnext with hnil | rfl
      · omega
      · rw [Bool.toNat_true] at hwords
        omega
  · rintro (_ | _) r hr
    · exact hr.1
    · trivial

end Compile

/-- **Counters fit** as long as the tokens can be counted with 32 bits. -/
theorem Pass.countersFit {p : Pass} (hp : p.InOrder)
    (hshort : p.upcoming.length < Scan.placeBound) : p.CountersFit where
  expression bound ctx₀ ctx t q hbound h := by
    obtain ⟨hvalues, hparens, hrelations, hoperators⟩ :=
      Compile.expression_fits hp hshort bound ctx₀ hbound h
    exact ⟨hvalues, hparens, hrelations, hoperators,
      fun t' r hr => (Compile.closeParen_parens.ok hr t' rfl).2⟩
  arguments bound ctx count comma q := Compile.arguments_fit hp hshort bound
  builtin bound ctx array count q hbound := Compile.builtin_fits hp hshort bound hbound
  parameters f comma q := Compile.parameters_fit hp hshort
  autos p₁ count comma q := Compile.autos_fit hp hshort

namespace Session

/-- A text whose bytes can be counted with 32 bits. -/
def IsShort (text : String) : Prop := Scan.byteLength text.toList < Scan.placeBound - 1

/-- **A call on a session never fails by itself.** Whatever was called before, except for an answer
inside a definition, the only failure of a call is that the source is refused. Where a session is
reset, which is between two calls or where a text is refused, the function that receives code is
there. Places in the texts, and the counters of every loop over their tokens, stay within their
bounds. -/
theorem calls_faultless {options : Options} {s : Session} (h : (new options).Leads IsShort s) :
    (∀ (c : Call) (fault : Fault), (c.run s).1 ≠ .error (.fault fault)) ∧
    (∃ f, s.program.function? s.target = some f) ∧
    (∀ text e t, s.run text Compile.chunk = (.error e, t) ∨
      s.run "" Compile.inputEnd = (.error e, t) → ∃ f, t.program.function? t.target = some f) ∧
    ∀ text, IsShort text → Scan.Fits text ∧
      ∀ (mode : Strictness) (p : Pass), p.InOrder → p.upcoming <:+ readTokens mode text →
        p.CountersFit := by
  have hs : s.Consistent False := h.consistent (consistent_new options) False.elim
  refine ⟨fun c fault hfault => ?_, hs.recoverable.function, ?_,
    fun text hshort => ⟨Scan.fits hshort, ?_⟩⟩
  · obtain ⟨d, hd⟩ := Call.isRefusal hs hfault
    cases hd
  · rintro text e t (ht | ht)
    · have hshort : False → text.toList.length < wordBound := False.elim
      rcases compile_cases hs hshort with ⟨_, _, hq, -⟩ | ⟨_, q, hq, hrec, -⟩ <;>
        rw [run, hq] at ht <;> cases ht
      exact hrec.function
    · rcases finish_cases hs with ⟨_, hq, -⟩ | ⟨_, q, hq, hrec, -⟩ <;> rw [run, hq] at ht <;> cases ht
      exact hrec.function
  · intro mode p hp hupcoming
    have hbytes : Scan.byteLength text.toList < Scan.placeBound - 1 := hshort
    have hchars := Scan.length_le_byteLength text.toList
    have htokens := length_readTokens_le mode text
    have hle := hupcoming.length_le
    exact Pass.countersFit hp (by omega)

/-- A function and a loop are open. -/
def openLoop : Call := .compile "define f(*a[], b) \x7b\nauto c, d[]\nfor (c = 0; c < b; ++c) \x7b\n"

/-- In the midst of a loop the input ends. -/
theorem openLoop_faultless :
    (new {}).Leads IsShort (openLoop.run (new {})).2 ∧
      (openLoop.run (new {})).2.target ≠ Program.mainId ∧
      ∀ fault, (Call.finish.run (openLoop.run (new {})).2).1 ≠ .error (.fault fault) := by
  have hleads : (new {}).Leads IsShort (openLoop.run (new {})).2 :=
    .call .refl (c := openLoop) (show IsShort _ by unfold IsShort; decide +kernel)
  exact ⟨hleads, by decide +kernel, (calls_faultless hleads).1 .finish⟩

end Session

end DeskCalc
