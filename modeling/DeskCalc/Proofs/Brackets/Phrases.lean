import DeskCalc.Proofs.Brackets
import DeskCalc.Proofs.Compiles
import DeskCalc.Statement.Control

/-!
# The words of statements

Every bracket of an expression has its partner (`Expr.plain_words`). The same is so of the words of
the statements that open no body, which are `Mild`, apart from the parentheses that the value of a
`return` puts up with (`ReturnValue`), and of the header of a branch or a loop (`Heading`), apart
from those that the clauses of a `for` put up with. Where POSIX is enforced they compare in
conditions alone, and the value of a `return` begins and ends with a parenthesis.
-/

namespace DeskCalc

variable {u : List Token} {k : Token.Kind} {mode : Strictness}

/-! ## Expressions -/

theorem Operator.isOther_word {op : Operator} (h : op ≠ .paren) : op.word.1.isOther = true := by
  cases op with
  | paren => exact absurd rfl h
  | _ => rfl

namespace Expr

theorem isOther_step (up : Bool) : Token.Kind.isOther (.symbol (stepSymbol up)) = true := by
  cases up <;> rfl

theorem plain_whole (name : String) : Plain ((wholeWords name).map (·.1)) :=
  ((Plain.single rfl).cons rfl).cons rfl

/-- A keyword or a name with an argument in parentheses. -/
theorem plain_call {k : Token.Kind} {w : List Token.Kind} (hk : k.isOther = true)
    (hw : Plain w) : Plain (k :: .symbol .leftParen :: w ++ [.symbol .rightParen]) :=
  hw.wrap.cons hk

mutual

/-- **Every bracket of an expression has its partner.** -/
theorem plain_words {array : Bool} : (e : Expr) → e.wellFormed array = true →
    Plain (e.words.map (·.1))
  | number _, _ | string _, _ | var _, _ | setting _, _ => .single rfl
  | whole name, _ => plain_whole name
  | elem _ index, h => by
    have hindex := plain_words index (by simpa [wellFormed] using h)
    rw [words, List.map_append]
    exact ((hindex.cons rfl).cons rfl).append (.single rfl)
  | query _, _ => plain_call rfl .nil
  | call _ args, h => by
    have hargs := plain_wordsOfAll args (by simpa [wellFormed] using h)
    rw [words, List.map_append]
    exact plain_call rfl hargs
  | unary _ arg, h | scaleOf arg, h => by
    have harg := plain_words arg (by simpa [wellFormed] using h)
    rw [words, List.map_append]
    exact plain_call rfl harg
  | modexp x y z, h => by
    simp only [wellFormed, Bool.and_eq_true] at h
    have hx := plain_words x h.1.1
    have hy := plain_words y h.1.2
    have hz := plain_words z h.2
    have hargs := hx.append ((hy.append (hz.cons (k := .symbol .comma) rfl)).cons
      (k := .symbol .comma) rfl)
    simpa [words] using plain_call (k := .keyword (.ternary .modexp)) rfl hargs
  | divmod x y name, h => by
    simp only [wellFormed, Bool.and_eq_true] at h
    have hx := plain_words x h.1
    have hy := plain_words y h.2
    have hargs := hx.append ((hy.append ((plain_whole name).cons (k := .symbol .comma) rfl)).cons
      (k := .symbol .comma) rfl)
    simpa [words] using plain_call (k := .keyword (.ternary .divmod)) rfl hargs
  | preStep up e, h => by
    simp only [wellFormed, Bool.and_eq_true] at h
    exact (plain_words e h.2).cons (isOther_step up)
  | postStep e up, h => by
    simp only [wellFormed, Bool.and_eq_true] at h
    rw [words, List.map_append]
    exact (plain_words e h.2).append (.single (isOther_step up))
  | trunc e, h => by
    simp only [wellFormed, Bool.and_eq_true] at h
    rw [words, List.map_append]
    exact (plain_words e h.2).append (.single rfl)
  | paren e, h => by
    have he := plain_words e (by simpa [wellFormed] using h)
    rw [words, List.map_append]
    exact he.wrap
  | prefixed op e, h => by
    simp only [wellFormed, Bool.and_eq_true] at h
    have hop : op ≠ .paren := by
      rintro rfl
      simp [Operator.isUnary] at h
    exact (plain_words e h.2).cons (Operator.isOther_word hop)
  | binary op left right, h => by
    simp only [wellFormed, Bool.and_eq_true] at h
    have hop : op ≠ .paren := by
      rintro rfl
      simp [Operator.isBinary] at h
    rw [words, List.map_append]
    exact (plain_words left h.1.2).append ((plain_words right h.2).cons (Operator.isOther_word hop))

theorem plain_wordsOfAll : (es : List Expr) → allWellFormed es = true →
    Plain ((wordsOfAll es).map (·.1))
  | [], _ => .nil
  | [e], h => plain_words e (by simpa [allWellFormed] using h)
  | e :: e' :: es, h => by
    rw [allWellFormed, Bool.and_eq_true] at h
    rw [wordsOfAll, List.map_append]
    · exact (plain_words e h.1).append ((plain_wordsOfAll (e' :: es) h.2).cons rfl)
    · simp

end

end Expr

/-! ## The kinds of tokens -/

/-- The kinds of some tokens, line feeds apart. -/
def kindsOf (u : List Token) : List Token.Kind := (wordsOf u).map (·.1)

@[simp] theorem kindsOf_nil : kindsOf [] = [] := rfl

@[simp] theorem kindsOf_append (u v : List Token) : kindsOf (u ++ v) = kindsOf u ++ kindsOf v := by
  simp [kindsOf]

theorem kindsOf_cons {t : Token} (h : t.kind = k) (hk : k ≠ .newline) (u : List Token) :
    kindsOf (t :: u) = k :: kindsOf u := by
  subst h
  simp [kindsOf, wordsOf, hk]

theorem kindsOf_single {t : Token} (h : t.kind = k) (hk : k ≠ .newline) : kindsOf [t] = [k] :=
  kindsOf_cons h hk []

theorem mem_kindsOf (h : k ∈ kindsOf u) : ∃ t ∈ u, t.kind = k ∧ k ≠ .newline := by
  simp only [kindsOf, wordsOf, List.mem_map, List.mem_filter, bne_iff_ne] at h
  obtain ⟨_, ⟨t, ⟨ht, hne⟩, rfl⟩, rfl⟩ := h
  rw [Token.word_fst]
  exact ⟨t, ht, rfl, hne⟩

theorem mem_kindsOf_of_mem {t : Token} (ht : t ∈ u) (hne : t.kind ≠ .newline) : t.kind ∈ kindsOf u := by
  simp only [kindsOf, wordsOf, List.mem_map, List.mem_filter, bne_iff_ne]
  exact ⟨t.word, ⟨t, ⟨ht, hne⟩, rfl⟩, Token.word_fst t⟩

/-- Line feeds do not count. -/
theorem kindsOf_newlines (h : ∀ t ∈ u, t.kind = .newline) : kindsOf u = [] := by
  rw [List.eq_nil_iff_forall_not_mem]
  intro k hk
  obtain ⟨t, ht, rfl, hne⟩ := mem_kindsOf hk
  exact hne (h t ht)

/-! ## Statements that open nothing -/

/-- No bracket is without its partner, no `return` or definition begins, and where POSIX is enforced
no token compares. -/
structure Mild (mode : Strictness) (w : List Token.Kind) : Prop extends Plain w where
  calm : mode = .strict → ∀ k ∈ w, k.compares = false

namespace Mild

variable {mode : Strictness} {k : Token.Kind} {v w : List Token.Kind}

theorem nil : Mild mode [] := ⟨.nil, fun _ => by simp⟩

theorem append (hv : Mild mode v) (hw : Mild mode w) : Mild mode (v ++ w) :=
  ⟨hv.toPlain.append hw.toPlain,
    fun h k hk => (List.mem_append.1 hk).elim (hv.calm h k) (hw.calm h k)⟩

theorem single (hk : k.isOther = true) (hc : k.compares = false) : Mild mode [k] :=
  ⟨.single hk, fun _ => by simpa using hc⟩

/-- A token that is no bracket. -/
theorem token {t : Token} (ht : t.kind = k) (hk : k.isOther = true) (hc : k.compares = false) :
    Mild mode (kindsOf [t]) := by
  by_cases hne : k = .newline
  · rw [kindsOf_newlines (by simpa using ht.trans hne)]
    exact .nil
  · rw [kindsOf_single ht hne]
    exact .single hk hc

theorem wrap (hw : Mild mode w) : Mild mode (.symbol .leftParen :: w ++ [.symbol .rightParen]) := by
  refine ⟨hw.toPlain.wrap, fun h k hk => ?_⟩
  simp only [List.cons_append, List.mem_cons, List.mem_append, List.not_mem_nil, or_false] at hk
  rcases hk with rfl | hk | rfl
  · rfl
  · exact hw.calm h k hk
  · rfl

theorem confined (hw : Mild mode w) (h : mode = .strict) : Confined w :=
  confined_of_forall (hw.calm h)

end Mild

/-- The tokens are those of the expression `e`, which is a condition if `condition`. -/
structure Spells (mode : Strictness) (condition : Bool) (u : List Token) (e : Expr) : Prop where
  kinds : kindsOf u = e.kinds
  wellFormed : e.wellFormed false = true
  allowed : e.Allowed mode condition

namespace Spells

variable {mode : Strictness} {condition : Bool} {u : List Token} {e : Expr}

theorem plain (h : Spells mode condition u e) : Plain (kindsOf u) := by
  rw [h.kinds]
  exact e.plain_words h.wellFormed

theorem undivided (h : Spells mode condition u e) : .symbol .semicolon ∉ kindsOf u := by
  rw [h.kinds, Expr.kinds, List.mem_map]
  rintro ⟨w, hw, hk⟩
  have hinner := List.all_eq_true.1 e.all_words_isInner w hw
  simp [Expr.isInner, hk] at hinner

theorem ne_nil (h : Spells mode condition u e) : u ≠ [] := by
  rintro rfl
  exact e.words_ne_nil (List.map_eq_nil_iff.1 h.kinds.symm)

/-- What is no condition does not compare. -/
theorem mild (h : Spells mode false u e) : Mild mode (kindsOf u) := by
  refine ⟨h.plain, fun hmode k hk => ?_⟩
  rw [h.kinds] at hk
  exact compares_of_comparisons (Nat.le_zero.1 (h.allowed hmode).2) hk

end Spells

/-- The first and the last of the tokens are parentheses. -/
structure Enclosed (u : List Token) : Prop where
  first : u.head?.map (·.kind) = some (.symbol .leftParen)
  last : u.getLast?.map (·.kind) = some (.symbol .rightParen)

theorem eq_paren_of_mem {n : Nat}
    (hk : k ∈ List.replicate n (.symbol .leftParen) ++ [.symbol .rightParen]) :
    k = .symbol .leftParen ∨ k = .symbol .rightParen := by
  rw [List.mem_append, List.mem_replicate, List.mem_singleton] at hk
  exact hk.imp_left And.right

/-- What stands behind the word `return`: nothing, parentheses around nothing, or a value. -/
inductive ReturnValue (mode : Strictness) : List Token → Prop
  | none : ReturnValue mode []
  | empty {u : List Token} (n : Nat)
      (hu : kindsOf u = List.replicate (n + 1) (.symbol .leftParen) ++ [.symbol .rightParen]) :
      ReturnValue mode u
  | value {u : List Token} {e : Expr} (hu : Spells mode false u e)
      (henclosed : mode = .strict → Enclosed u) : ReturnValue mode u

namespace ReturnValue

variable {mode : Strictness} {u : List Token}

theorem clause (h : ReturnValue mode u) : Clause [.keyword .returnValue] (kindsOf u) := by
  cases h with
  | none => exact .of_plain .nil
  | empty n hu => exact hu ▸ .parens_empty .returnValue n
  | value hu => exact .of_plain hu.plain

theorem quiet (h : ReturnValue mode u) : ∀ k ∈ kindsOf u, k.isLead = false := by
  cases h with
  | none => exact List.forall_mem_nil _
  | empty n hu =>
    intro k hk
    rcases eq_paren_of_mem (hu ▸ hk) with rfl | rfl <;> rfl
  | value hu => exact hu.plain.quiet

theorem confined (h : ReturnValue mode u) (hmode : mode = .strict) : Confined (kindsOf u) := by
  cases h with
  | none => exact .nil
  | empty n hu =>
    refine confined_of_forall fun k hk => ?_
    rcases eq_paren_of_mem (hu ▸ hk) with rfl | rfl <;> rfl
  | value hu => exact hu.mild.confined hmode

end ReturnValue

/-- The tokens of a statement that opens nothing. -/
inductive Phrase (mode : Strictness) : List Token → Prop
  | mild {u : List Token} (h : Mild mode (kindsOf u)) : Phrase mode u
  | returns {t : Token} {u : List Token} (ht : t.kind = .keyword .returnValue)
      (hu : ReturnValue mode u) : Phrase mode (t :: u)

namespace Phrase

variable {mode : Strictness} {u : List Token}

theorem clause (h : Phrase mode u) : Clause [] (kindsOf u) := by
  cases h with
  | mild h => exact .of_plain h.toPlain
  | returns ht hu =>
    rw [kindsOf_cons ht (by simp)]
    exact (Clause.token rfl rfl).append hu.clause

end Phrase

/-! ## Headers -/

theorem Header.clause {h : List Token.Kind} (hh : Header h) : Clause [] h := by
  cases hh with
  | elseBranch => exact .of_plain (.single rfl)
  | @ofClause k hk w hw =>
    have hkey : Clause [] [.keyword k] := by
      refine .of_plain (.single ?_)
      simp only [List.mem_cons, List.not_mem_nil, or_false] at hk
      rcases hk with rfl | rfl | rfl <;> rfl
    exact hkey.append (Clause.wrap hw)

/-- The header of a branch or a loop, which compares as POSIX allows it where that is enforced. -/
structure Heading (mode : Strictness) (h : List Token.Kind) : Prop where
  header : Header h
  quiet : ∀ k ∈ h, k.isLead = false
  confined : mode = .strict → Confined h

/-- The condition of a branch or a loop in its parentheses, behind the keyword. -/
theorem heading_of_condition {k : Keyword} (hk : k = .ifBranch ∨ k = .whileLoop) {e : Expr}
    (h : Spells mode true u e) :
    Heading mode (.keyword k :: .symbol .leftParen :: kindsOf u ++ [.symbol .rightParen]) where
  header := .ofClause (by rcases hk with rfl | rfl <;> simp) (.of_plain h.plain)
  quiet := by
    have hquiet := h.plain.wrap.quiet
    rcases hk with rfl | rfl <;> exact List.forall_mem_cons.2 ⟨rfl, hquiet⟩
  confined hmode := by
    rw [h.kinds]
    exact .header hk ⟨h.wellFormed, (h.allowed hmode).2, (h.allowed hmode).1⟩ .nil

/-- A clause of a `for` that stands behind `lead`. Where POSIX is enforced it is not empty. -/
structure LoopClause (mode : Strictness) (condition : Bool) (lead : List Token.Kind)
    (u : List Token) : Prop where
  clause : Clause lead (kindsOf u)
  quiet : ∀ k ∈ kindsOf u, k.isLead = false
  undivided : .symbol .semicolon ∉ kindsOf u
  spelt : mode = .strict → ∃ e, Spells mode condition u e

theorem Spells.loopClause {condition : Bool} {lead : List Token.Kind} {e : Expr}
    (h : Spells mode condition u e) : LoopClause mode condition lead u :=
  ⟨.of_plain h.plain, h.plain.quiet, h.undivided, fun _ => ⟨e, h⟩⟩

/-- An empty clause. Parentheses around nothing may have lost their beginning only behind that of the
`for`. -/
theorem loopClause_of_empty {condition : Bool} {lead : List Token.Kind} (hlead : ClauseLead lead)
    {n : Nat} (hu : kindsOf u = List.replicate n (.symbol .leftParen) ++ [.symbol .rightParen])
    (hn : n = 0 → lead = [.keyword .forLoop, .symbol .leftParen]) (hmode : mode ≠ .strict) :
    LoopClause mode condition lead u := by
  refine ⟨?_, fun k hk => ?_, fun hk => ?_, fun h => absurd h hmode⟩
  · rw [hu]
    cases n with
    | zero =>
      rw [hn rfl]
      exact .parens_closing
    | succ n => exact .parens_empty hlead n
  · rcases eq_paren_of_mem (hu ▸ hk) with rfl | rfl <;> rfl
  · rcases eq_paren_of_mem (hu ▸ hk) with hk | hk <;> cases hk

theorem clause_semicolon {before : List Token.Kind} : Clause before [.symbol .semicolon] :=
  .of_plain (.single rfl)

/-- The header of a `for`: three clauses with semicolons between them. -/
theorem heading_of_for {u₁ u₂ u₃ : List Token}
    (h₁ : LoopClause mode false [.keyword .forLoop, .symbol .leftParen] u₁)
    (h₂ : LoopClause mode true (.keyword .forLoop :: .symbol .leftParen :: kindsOf u₁ ++
      [.symbol .semicolon]) u₂)
    (h₃ : LoopClause mode false (.keyword .forLoop :: .symbol .leftParen ::
      (kindsOf u₁ ++ [.symbol .semicolon] ++ kindsOf u₂) ++ [.symbol .semicolon]) u₃) :
    Heading mode (.keyword .forLoop :: .symbol .leftParen ::
      (kindsOf u₁ ++ [.symbol .semicolon] ++ kindsOf u₂ ++ [.symbol .semicolon] ++ kindsOf u₃) ++
        [.symbol .rightParen]) where
  header := by
    have hsecond := (h₁.clause.append clause_semicolon).append (w := kindsOf u₂)
      (by simpa using h₂.clause)
    exact .ofClause (by simp) ((hsecond.append clause_semicolon).append (by simpa using h₃.clause))
  quiet := by
    have hall := And.intro h₁.quiet (And.intro h₂.quiet h₃.quiet)
    simpa [or_imp, forall_and, Token.Kind.isLead] using hall
  confined hmode := by
    obtain ⟨first, hfirst⟩ := h₁.spelt hmode
    obtain ⟨e, he⟩ := h₂.spelt hmode
    obtain ⟨last, hlast⟩ := h₃.spelt hmode
    have := Confined.loop (Nat.le_zero.1 (hfirst.allowed hmode).2)
      ⟨he.wellFormed, (he.allowed hmode).2, (he.allowed hmode).1⟩
      (Nat.le_zero.1 (hlast.allowed hmode).2) .nil
    simpa [hfirst.kinds, he.kinds, hlast.kinds] using this

/-- The block has just been opened, and its body is to come. -/
structure Block.Awaits (b : Block) : Prop where
  awaited : b.awaited = true
  brace : b.brace = false
  ifEnded : b.ifEnded = false

theorem Block.awaits_bodyIn {b : Block} (hbrace : b.brace = false) (hended : b.ifEnded = false)
    (outer : Block) : (b.bodyIn outer).Awaits := ⟨rfl, hbrace, hended⟩

end DeskCalc
