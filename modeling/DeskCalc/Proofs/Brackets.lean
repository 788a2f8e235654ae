import DeskCalc.Proofs.Grammar

/-!
# Brackets in a sequence of tokens

The tokens of a text are `Balanced` in a pair of brackets if no beginning of them closes more
brackets than it opens, and all of them close as many as they open. `Bracket.height` counts the
brackets that are open along the way, so that a sequence can be taken apart.

Some brackets have no partner and do no harm. A sequence without such brackets is told by
`Prunes S`, where `S` says of a token, with all that stands before and behind it, that it may be
left out. The compiler puts up with a parenthesis too many where an expression may be `()`
(`SurplusParen`), and with a brace that closes nothing between the header of a body and an `else`
(`StrayBrace`).
-/

namespace DeskCalc

/-- The brackets that group expressions and statements. -/
inductive Bracket
  | paren
  | brace
deriving DecidableEq, Repr

namespace Bracket

/-- The opening bracket. -/
def opening : Bracket → Token.Kind
  | paren => .symbol .leftParen
  | brace => .symbol .leftBrace

/-- The closing bracket. -/
def closing : Bracket → Token.Kind
  | paren => .symbol .rightParen
  | brace => .symbol .rightBrace

/-- No beginning closes more brackets than it opens, and as many are closed as are opened. -/
structure Balanced (b : Bracket) (w : List Token.Kind) : Prop where
  beginnings : ∀ v, v <+: w → v.count b.closing ≤ v.count b.opening
  total : w.count b.closing = w.count b.opening

/-- How many brackets are open behind `w` if `n` are open before it, unless one is closed that
was not opened. -/
def height (b : Bracket) : Nat → List Token.Kind → Option Nat
  | n, [] => some n
  | n, k :: w =>
    if k = b.opening then b.height (n + 1) w
    else if k = b.closing then
      match n with
      | 0 => none
      | n + 1 => b.height n w
    else b.height n w

variable {b : Bracket} {k : Token.Kind} {m n : Nat} {v w : List Token.Kind}

theorem closing_ne_opening (b : Bracket) : b.closing ≠ b.opening := by
  cases b <;> simp [closing, opening]

@[simp] theorem height_nil : b.height n [] = some n := rfl

@[simp] theorem height_opening : b.height n (b.opening :: w) = b.height (n + 1) w := by
  simp [height]

@[simp] theorem height_closing : b.height (n + 1) (b.closing :: w) = b.height n w := by
  simp [height, closing_ne_opening]

theorem height_of_ne (ho : k ≠ b.opening) (hc : k ≠ b.closing) :
    b.height n (k :: w) = b.height n w := by
  simp [height, ho, hc]

theorem height_append (n : Nat) (v w : List Token.Kind) :
    b.height n (v ++ w) = (b.height n v).bind (b.height · w) := by
  induction v generalizing n with
  | nil => rfl
  | cons k v ih =>
    simp only [List.cons_append, height, ih]
    split
    · rfl
    · split
      · cases n <;> rfl
      · rfl

/-- What holds of no token, and of a token with every beginning behind it, holds of every
beginning. -/
theorem forall_beginning {P : List Token.Kind → Prop} (hnil : P [])
    (hcons : ∀ v, v <+: w → P (k :: v)) (v : List Token.Kind) (hv : v <+: k :: w) : P v := by
  rcases List.prefix_cons_iff.1 hv with rfl | ⟨u, rfl, hu⟩
  · exact hnil
  · exact hcons u hu

/-- The height tells how many more brackets are opened than closed, along the way and in all. -/
theorem count_of_height (h : b.height n w = some m) :
    (∀ v, v <+: w → v.count b.closing ≤ v.count b.opening + n) ∧
      w.count b.closing + m = w.count b.opening + n := by
  have hne := closing_ne_opening b
  induction w generalizing n with
  | nil =>
    rw [height_nil, Option.some.injEq] at h
    subst h
    simp
  | cons k w ih =>
    by_cases hk : k = b.opening
    · subst hk
      rw [height_opening] at h
      obtain ⟨hbegin, htotal⟩ := ih h
      have hcount (v : List Token.Kind) : (b.opening :: v).count b.closing = v.count b.closing :=
        List.count_cons_of_ne hne.symm
      refine ⟨forall_beginning (by simp) fun v hv => ?_, ?_⟩
      · have := hbegin v hv
        rw [hcount, List.count_cons_self]
        omega
      · rw [hcount, List.count_cons_self]
        omega
    by_cases hk' : k = b.closing
    · subst hk'
      have hcount (v : List Token.Kind) : (b.closing :: v).count b.opening = v.count b.opening :=
        List.count_cons_of_ne hne
      cases n with
      | zero => simp [height, hne] at h
      | succ n =>
        rw [height_closing] at h
        obtain ⟨hbegin, htotal⟩ := ih h
        refine ⟨forall_beginning (by simp) fun v hv => ?_, ?_⟩
        · have := hbegin v hv
          rw [hcount, List.count_cons_self]
          omega
        · rw [hcount, List.count_cons_self]
          omega
    · rw [height_of_ne hk hk'] at h
      obtain ⟨hbegin, htotal⟩ := ih h
      refine ⟨forall_beginning (by simp) fun v hv => ?_, ?_⟩
      · rw [List.count_cons_of_ne hk, List.count_cons_of_ne hk']
        exact hbegin v hv
      · rw [List.count_cons_of_ne hk, List.count_cons_of_ne hk']
        exact htotal

theorem balanced_of_height (h : b.height 0 w = some 0) : b.Balanced w := by
  obtain ⟨hbegin, htotal⟩ := count_of_height h
  exact ⟨hbegin, htotal⟩

/-! ## Parts that leave the height as it is -/

/-- Whatever is open before `w` is open behind it, and nothing else. -/
def Even (b : Bracket) (w : List Token.Kind) : Prop := ∀ n, b.height n w = some n

theorem Even.nil : b.Even [] := fun _ => rfl

theorem Even.append (hv : b.Even v) (hw : b.Even w) : b.Even (v ++ w) := by
  intro n
  rw [height_append, hv n]
  exact hw n

/-- The token is none of the brackets. -/
def isOther (b : Bracket) (k : Token.Kind) : Bool := k != b.opening && k != b.closing

theorem Even.single (hk : b.isOther k = true) : b.Even [k] := by
  intro n
  rw [isOther, Bool.and_eq_true, bne_iff_ne, bne_iff_ne] at hk
  rw [height_of_ne hk.1 hk.2, height_nil]

theorem Even.cons (hk : b.isOther k = true) (hw : b.Even w) : b.Even (k :: w) :=
  (Even.single hk).append hw

theorem Even.wrap (hw : b.Even w) : b.Even (b.opening :: w ++ [b.closing]) := by
  intro n
  rw [List.cons_append, height_opening, height_append, hw (n + 1)]
  exact height_closing

end Bracket

/-- The token begins a `return`, an `auto` or a definition. -/
def Token.Kind.isLead : Token.Kind → Bool
  | .keyword .returnValue | .keyword .autoDecl | .keyword .define => true
  | _ => false

/-- The token is no bracket, and it does not begin a `return` or a definition. -/
def Token.Kind.isOther : Token.Kind → Bool
  | .symbol .leftParen | .symbol .rightParen | .symbol .leftBrace | .symbol .rightBrace => false
  | k => !k.isLead

theorem Token.Kind.isOther_bracket {k : Token.Kind} (h : k.isOther = true) (b : Bracket) :
    b.isOther k = true := by
  rw [Bracket.isOther, Bool.and_eq_true, bne_iff_ne, bne_iff_ne]
  constructor <;> rintro rfl <;> cases b <;> cases h

/-- No bracket is without its partner, and no `return` or definition begins. -/
structure Plain (w : List Token.Kind) : Prop where
  even : ∀ b : Bracket, b.Even w
  quiet : ∀ k ∈ w, k.isLead = false

namespace Plain

variable {k : Token.Kind} {v w : List Token.Kind}

theorem nil : Plain [] := ⟨fun _ => .nil, List.forall_mem_nil _⟩

theorem append (hv : Plain v) (hw : Plain w) : Plain (v ++ w) :=
  ⟨fun b => (hv.even b).append (hw.even b), List.forall_mem_append.2 ⟨hv.quiet, hw.quiet⟩⟩

theorem single (hk : k.isOther = true) : Plain [k] := by
  refine ⟨fun b => .single (Token.Kind.isOther_bracket hk b), ?_⟩
  rw [List.forall_mem_singleton]
  rw [Token.Kind.isOther.eq_def] at hk
  split at hk
  · rfl
  · rfl
  · rfl
  · rfl
  · simpa using hk

theorem cons (hk : k.isOther = true) (hw : Plain w) : Plain (k :: w) := (single hk).append hw

theorem of_forall (h : ∀ k ∈ w, k.isOther = true) : Plain w := by
  induction w with
  | nil => exact .nil
  | cons k w ih =>
    rw [List.forall_mem_cons] at h
    exact (ih h.2).cons h.1

/-- Parentheses around a part. -/
theorem wrap (hw : Plain w) : Plain (.symbol .leftParen :: w ++ [.symbol .rightParen]) := by
  refine ⟨fun b => ?_, List.forall_mem_append.2
    ⟨List.forall_mem_cons.2 ⟨rfl, hw.quiet⟩, List.forall_mem_singleton.2 rfl⟩⟩
  cases b with
  | paren => exact (hw.even .paren).wrap
  | brace => exact ((hw.even .brace).cons rfl).append (.single rfl)

end Plain

/-! ## Words without brackets that have no partner -/

/-- What may be left out: a token, where it is known what stands before it and behind it. -/
abbrev Removable := List Token.Kind → Token.Kind → List Token.Kind → Prop

/-- Between `before` and `behind` stands `w`, and `v` is `w` without some tokens that may be left
out. -/
inductive Prunes (S : Removable) (behind : List Token.Kind) :
    List Token.Kind → List Token.Kind → List Token.Kind → Prop
  | nil {before : List Token.Kind} : Prunes S behind before [] []
  | keep {before : List Token.Kind} {k : Token.Kind} {w v : List Token.Kind}
      (h : Prunes S behind (before ++ [k]) w v) : Prunes S behind before (k :: w) (k :: v)
  | drop {before : List Token.Kind} {k : Token.Kind} {w v : List Token.Kind}
      (hk : S before k (w ++ behind)) (h : Prunes S behind (before ++ [k]) w v) :
      Prunes S behind before (k :: w) v

namespace Prunes

variable {S : Removable} {before behind v v' w w' : List Token.Kind}

/-- Nothing needs to be left out. -/
theorem refl (w : List Token.Kind) : Prunes S behind before w w := by
  induction w generalizing before with
  | nil => exact .nil
  | cons k w ih => exact .keep ih

theorem append (h : Prunes S (w' ++ behind) before w v) (h' : Prunes S behind (before ++ w) w' v') :
    Prunes S behind before (w ++ w') (v ++ v') := by
  induction h with
  | nil => simpa using h'
  | keep _ ih => exact .keep (ih (by simpa using h'))
  | drop hk _ ih => exact .drop (by simpa using hk) (ih (by simpa using h'))

/-- More may stand before. -/
theorem mono (hS : ∀ c before k behind, S before k behind → S (c ++ before) k behind)
    (c : List Token.Kind) (h : Prunes S behind before w v) : Prunes S behind (c ++ before) w v := by
  induction h with
  | nil => exact .nil
  | keep _ ih =>
    rw [← List.append_assoc] at ih
    exact .keep ih
  | drop hk _ ih =>
    rw [← List.append_assoc] at ih
    exact .drop (hS c _ _ _ hk) ih

end Prunes

/-! ## Parentheses too many -/

/-- What the value of a `return` and the clauses of a `for` stand behind. Two semicolons divide the
clauses. -/
inductive ClauseLead : List Token.Kind → Prop
  | returnValue : ClauseLead [.keyword .returnValue]
  | first : ClauseLead [.keyword .forLoop, .symbol .leftParen]
  | later {w : List Token.Kind} (h : w.count (.symbol .semicolon) ≤ 1) :
      ClauseLead (.keyword .forLoop :: .symbol .leftParen :: w ++ [.symbol .semicolon])

/-- A parenthesis that may have no partner. Before an empty pair of parentheses that is the whole
value of a `return`, or a whole clause of a `for`, more may be opened. Right behind that of a `for`
one may be closed. -/
inductive SurplusParen : Removable
  | opening (before behind : List Token.Kind) {lead : List Token.Kind} (h : ClauseLead lead)
      (m n : Nat) :
      SurplusParen (before ++ lead ++ List.replicate m (.symbol .leftParen)) (.symbol .leftParen)
        (List.replicate (n + 1) (.symbol .leftParen) ++ .symbol .rightParen :: behind)
  | closing (before behind : List Token.Kind) :
      SurplusParen (before ++ [.keyword .forLoop, .symbol .leftParen]) (.symbol .rightParen) behind

theorem SurplusParen.mono (c : List Token.Kind) {before behind : List Token.Kind} {k : Token.Kind}
    (h : SurplusParen before k behind) : SurplusParen (c ++ before) k behind := by
  cases h with
  | opening before behind h m n =>
    rw [← List.append_assoc, ← List.append_assoc]
    exact .opening (c ++ before) behind h m n
  | closing before behind =>
    rw [← List.append_assoc]
    exact .closing (c ++ before) behind

/-- Behind `before` stands `w`. It has no brace without its partner, and no parenthesis but those
that the compiler puts up with. -/
structure Clause (before w : List Token.Kind) : Prop where
  braces : Bracket.brace.Even w
  parens : ∀ behind, ∃ v, Prunes SurplusParen behind before w v ∧ Bracket.paren.Even v

namespace Clause

variable {before v w : List Token.Kind}

theorem of_plain (h : Plain w) : Clause before w :=
  ⟨h.even .brace, fun _ => ⟨w, .refl w, h.even .paren⟩⟩

theorem token {k : Token.Kind} (hbrace : Bracket.brace.isOther k = true)
    (hparen : Bracket.paren.isOther k = true) : Clause before [k] :=
  ⟨.single hbrace, fun _ => ⟨_, .refl _, .single hparen⟩⟩

theorem append (hv : Clause before v) (hw : Clause (before ++ v) w) : Clause before (v ++ w) := by
  refine ⟨hv.braces.append hw.braces, fun behind => ?_⟩
  obtain ⟨v', hpv, hv'⟩ := hv.parens (w ++ behind)
  obtain ⟨w', hpw, hw'⟩ := hw.parens behind
  exact ⟨v' ++ w', hpv.append hpw, hv'.append hw'⟩

theorem mono (c : List Token.Kind) (h : Clause before w) : Clause (c ++ before) w := by
  refine ⟨h.braces, fun behind => ?_⟩
  obtain ⟨v, hv, heven⟩ := h.parens behind
  exact ⟨v, hv.mono (fun c _ _ _ hk => hk.mono c) c, heven⟩

/-- A clause in parentheses. -/
theorem wrap (h : Clause (before ++ [.symbol .leftParen]) w) :
    Clause before (.symbol .leftParen :: w ++ [.symbol .rightParen]) := by
  refine ⟨?_, fun behind => ?_⟩
  · exact (h.braces.cons rfl).append (.single rfl)
  · obtain ⟨v, hv, heven⟩ := h.parens (.symbol .rightParen :: behind)
    refine ⟨.symbol .leftParen :: v ++ [.symbol .rightParen], ?_, heven.wrap⟩
    exact .keep (hv.append (.refl _))

/-- Parentheses around nothing, where more of them may be opened: all but the last are left out. -/
theorem prunes_empty (before : List Token.Kind) {behind lead : List Token.Kind}
    (hlead : ClauseLead lead) (m n : Nat) :
    Prunes SurplusParen behind (before ++ lead ++ List.replicate m (.symbol .leftParen))
      (List.replicate (n + 1) (.symbol .leftParen) ++ [.symbol .rightParen])
      [.symbol .leftParen, .symbol .rightParen] := by
  induction n generalizing m with
  | zero => exact .refl _
  | succ n ih =>
    rw [List.replicate_succ, List.cons_append]
    refine .drop ?_ ?_
    · rw [List.append_assoc (List.replicate _ _)]
      exact .opening before behind hlead m n
    · have := ih (m + 1)
      rwa [List.replicate_succ', ← List.append_assoc] at this

theorem parens_empty {lead : List Token.Kind} (hlead : ClauseLead lead) (n : Nat) :
    Clause lead (List.replicate (n + 1) (.symbol .leftParen) ++ [.symbol .rightParen]) := by
  refine ⟨?_, fun behind => ⟨[.symbol .leftParen, .symbol .rightParen], ?_,
    Bracket.Even.wrap (b := .paren) .nil⟩⟩
  · refine Bracket.Even.append ?_ (.single rfl)
    induction n with
    | zero => exact .single rfl
    | succ n ih =>
      rw [List.replicate_succ]
      exact ih.cons rfl
  · simpa using prunes_empty [] hlead 0 n

/-- A parenthesis that is closed right behind that of a `for`. -/
theorem parens_closing :
    Clause [.keyword .forLoop, .symbol .leftParen] [.symbol .rightParen] :=
  ⟨.single rfl, fun behind => ⟨[], .drop (.closing [] behind) .nil, .nil⟩⟩

end Clause

/-! ## Braces that close nothing -/

/-- The header of a body: the word `else`, or a keyword with a clause in parentheses. -/
inductive Header : List Token.Kind → Prop
  | elseBranch : Header [.keyword .elseBranch]
  | ofClause {k : Keyword} (hk : k ∈ [.ifBranch, .whileLoop, .forLoop]) {w : List Token.Kind}
      (hw : Clause [.keyword k, .symbol .leftParen] w) :
      Header (.keyword k :: .symbol .leftParen :: w ++ [.symbol .rightParen])

/-- The last of `w` is the header of a body, semicolons apart. -/
def AfterHeader (w : List Token.Kind) : Prop :=
  ∃ before h blank, w = before ++ h ++ blank ∧ Header h ∧ ∀ k ∈ blank, k = .symbol .semicolon

theorem AfterHeader.append {w v : List Token.Kind} (h : AfterHeader w)
    (hv : ∀ k ∈ v, k = .symbol .semicolon) : AfterHeader (w ++ v) := by
  obtain ⟨before, header, blank, rfl, hheader, hblank⟩ := h
  refine ⟨before, header, blank ++ v, by simp, hheader, fun k hk => ?_⟩
  exact (List.mem_append.1 hk).elim (hblank k) (hv k)

theorem afterHeader_of_header {w h : List Token.Kind} (hh : Header h) : AfterHeader (w ++ h) :=
  ⟨w, h, [], by simp, hh, by simp⟩

/-- A brace that may have no partner: it stands between the header of a body and an `else`. -/
inductive StrayBrace : Removable
  | intro {before behind : List Token.Kind} (h : AfterHeader before) :
      StrayBrace before (.symbol .rightBrace) (.keyword .elseBranch :: behind)

end DeskCalc
