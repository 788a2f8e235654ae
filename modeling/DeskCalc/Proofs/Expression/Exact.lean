import DeskCalc.Proofs.Expression.Complete
import DeskCalc.Proofs.Expression.Sound

/-!
# The expressions that are compiled are those of the grammar

Whether the compiler accepts some tokens as an expression is settled by the grammar alone:
`expression_accepts_iff`. The code it writes is the code of the tree.
-/

namespace DeskCalc

theorem wordsOf_eq_map {u : List Token} (h : ∀ t ∈ u, t.kind ≠ .newline) :
    wordsOf u = u.map Token.word := by
  rw [wordsOf, List.filter_eq_self.2]
  intro t ht
  simpa using h t ht

namespace Compile

variable {p q : Pass} {ctx : Context} {ends : Ends} {u rest : List Token} {k : Token}

/-- The expression that was compiled from the tokens `u`. -/
theorem exists_words_of_ok (hp : p.InOrder) (hu : p.rest = u ++ k :: rest)
    (hlines : ∀ t ∈ u, t.kind ≠ .newline) (hq : expression ctx ends p = .ok () q)
    (hrest : q.rest = k :: rest) :
    ∃ e : Expr, e.wellFormed ctx.wholeArray = true ∧ e.words = u.map Token.word := by
  obtain ⟨e, v, ⟨he, -⟩, hwords, hv⟩ := (expression_sound hp).ok hq
  have huv : u = v := by
    have := hv.rest_eq
    rw [hu, hrest] at this
    exact List.append_cancel_right this
  subst huv
  exact ⟨e, he, by rw [← hwords, wordsOf_eq_map hlines]⟩

/-- An expression of the grammar is compiled, unless a table is full. -/
theorem exists_ok_of_words (hp : p.InOrder) (hlenient : p.strictness = .lenient)
    (hanswer : ctx.answer = false) (harray : ctx.wholeArray = false)
    (hprevious : p.previous.blocksStep = false) (hu : p.rest = u ++ k :: rest)
    (hends : ends ∈ Ends.all) (hk : k.kind ∈ ends)
    (hroom : ∀ s q, expression ctx ends p = .error s q → ¬ s.IsShortage) {e : Expr}
    (he : e.wellFormed false = true) (hwords : e.words = u.map Token.word) :
    ∃ q, expression ctx ends p = .ok () q ∧ q.rest = k :: rest ∧
      p.Compiles u (e.settled ctx) q := by
  have hw : p.words = e.words ++ k.word :: rest.map Token.word := by
    rw [Pass.words, hu, hwords]
    simp
  have hk' : k.word.1 ∈ ends := by rwa [Token.word_fst]
  have hcompiles := expression_complete hanswer (harray ▸ he) (.of_previous hprevious) hw
    (Ends.endsExpression hends hk') (by simp [Expr.isWhole_of_wellFormed he]) hp hlenient hk'
  cases hrun : expression ctx ends p with
  | error s q => exact absurd (hcompiles.error hrun) (hroom s q hrun)
  | ok a q =>
    obtain ⟨⟨v, hv⟩, hq⟩ := hcompiles.ok hrun
    have hrest := hv.rest_eq
    have hlength : v.length = u.length := by
      have hl := congrArg List.length hq
      have hl' := congrArg List.length (hu.symm.trans hrest)
      simp only [Pass.words, List.length_map, List.length_cons, List.length_append] at hl hl'
      omega
    obtain ⟨rfl, hr⟩ := List.append_inj (hu.symm.trans hrest) hlength.symm
    exact ⟨q, rfl, hr.symm, hv⟩

/-- **The compiler accepts exactly the expressions of the grammar, and writes their code.** The
tokens `u` up to one that ends the expression are taken as a value, all of them and no more, just
when they are the words of a well-formed tree; and whichever tree that is, its code is what is
written. -/
theorem expression_accepts_iff (hp : p.InOrder) (hlenient : p.strictness = .lenient)
    (hprevious : p.previous.blocksStep = false) (hu : p.rest = u ++ k :: rest)
    (hlines : ∀ t ∈ u, t.kind ≠ .newline) (hends : ends ∈ Ends.all) (hk : k.kind ∈ ends)
    (condition : Bool)
    (hroom : ∀ s q, expression { condition := condition, needsValue := true } ends p = .error s q →
      ¬ s.IsShortage) :
    ((∃ q, expression { condition := condition, needsValue := true } ends p = .ok () q ∧
        q.rest = k :: rest) ↔
      ∃ e : Expr, e.wellFormed false = true ∧ e.words = u.map Token.word) ∧
    ∀ e : Expr, e.wellFormed false = true → e.words = u.map Token.word →
      ∃ q, expression { condition := condition, needsValue := true } ends p = .ok () q ∧
        p.Compiles u e.postorder q := by
  have hwrites (e : Expr) (he : e.wellFormed false = true) (hwords : e.words = u.map Token.word) :=
    exists_ok_of_words hp hlenient rfl rfl hprevious hu hends hk hroom he hwords
  refine ⟨⟨?_, ?_⟩, ?_⟩
  · rintro ⟨q, hq, hrest⟩
    exact exists_words_of_ok hp hu hlines hq hrest
  · rintro ⟨e, he, hwords⟩
    obtain ⟨q, hq, hrest, -⟩ := hwrites e he hwords
    exact ⟨q, hq, hrest⟩
  · intro e he hwords
    obtain ⟨q, hq, -, hcode⟩ := hwrites e he hwords
    exact ⟨q, hq, by simpa [Expr.settled] using hcode⟩

/-- The token of a word, at no particular place. -/
def tokenOf (w : Word) : Token := ⟨w.1, w.2, ⟨0, 0, 0⟩⟩

/-- A new session at the beginning of a line with these tokens. -/
def lineOf (t : Token) (ts : List Token) : Pass where
  toSession := Session.new {}
  token := t
  previous := .newline
  upcoming := (ts ++ [tokenOf (.newline, ""), tokenOf (.eof, "")]).map (⟨·, [], none⟩)

/-- The tree of `a[i] = -b ^ 2$ * (c + 1)`. -/
def elementUpdate : Expr :=
  .binary (.assign none) (.elem "a" (.var "i"))
    (.binary (.arith .multiply)
      (.binary (.arith .power) (.prefixed .neg (.var "b")) (.trunc (.number "2")))
      (.paren (.binary (.arith .plus) (.var "c") (.number "1"))))

/-- The line `a[i] = -b ^ 2$ * (c + 1)`. -/
def elementLine : Pass := lineOf (tokenOf (.name, "a")) (elementUpdate.words.tail.map tokenOf)

theorem expression_accepts_elementUpdate :
    elementUpdate.wellFormed false = true ∧
    ∃ q, expression { needsValue := true } Ends.statement elementLine = .ok () q ∧
      elementLine.Compiles (elementUpdate.words.map tokenOf) elementUpdate.postorder q := by
  have hrun : (match expression { needsValue := true } Ends.statement elementLine with
      | .ok _ _ => true | .error _ _ => false) = true := by decide +kernel
  have hp : elementLine.InOrder :=
    ⟨⟨_, rfl, rfl⟩, by decide +kernel, by decide +kernel, ⟨_, rfl⟩⟩
  have hu : elementLine.rest = elementUpdate.words.map tokenOf ++
      tokenOf (.newline, "") :: [tokenOf (.eof, "")] := by decide +kernel
  refine ⟨by decide +kernel, ?_⟩
  refine (expression_accepts_iff hp rfl rfl hu (by decide +kernel) (by decide) (by decide) false
    ?_).2 _ (by decide +kernel) (by decide +kernel)
  intro s q hq
  rw [hq] at hrun
  exact absurd hrun (by simp)

end Compile

end DeskCalc
