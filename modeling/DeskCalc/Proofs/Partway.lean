import DeskCalc.Expression
import DeskCalc.Proofs.Compiles
import DeskCalc.Proofs.Waiting

/-!
# In the middle of an expression

`Partway p₀ array fs x t p` says where the compiler stands in an expression that began at `p₀`: the
frames `fs` wait, the operand `x` was read behind them if there is one, and the tally `t` counts
what these are. The words read and the code written since `p₀` are those of the frames and of the
operand.

Each thing that can come next has a lemma that says how it changes the frames and the operand:
`Partway.operand`, `Partway.prefixed`, `Partway.binary`, `Partway.openParen`, `Partway.closeParen`,
`Partway.trunc`, `Partway.postStep` and `Partway.preStep`.
-/

namespace DeskCalc

/-- The words of an operand, if there is one. -/
def operandWords (x : Option Expr) : List Word := (x.map Expr.words).getD []

/-- The code of an operand, if there is one. -/
def operandCode (x : Option Expr) : List Symbolic := (x.map Expr.postorder).getD []

@[simp] theorem operandWords_none : operandWords none = [] := rfl

@[simp] theorem operandWords_some (e : Expr) : operandWords (some e) = e.words := rfl

@[simp] theorem operandCode_none : operandCode none = [] := rfl

@[simp] theorem operandCode_some (e : Expr) : operandCode (some e) = e.postorder := rfl

/-- The tally `t'` is `t` where the operator, if it compares, has been counted. -/
structure Tally.Counts (op : Operator) (t t' : Tally) : Prop where
  values : t'.values = t.values
  parens : t'.parens = t.parens
  relations : t'.relations = t.relations + if op.isRelational then 1 else 0

/-- The tally counts the comparisons of the frames and the operand, and none of them is inside an
argument or a subscript. -/
structure Tallied (fs : List Frame) (x : Option Expr) (t : Tally) : Prop where
  relations : comparisons (frameWords fs ++ operandWords x) = t.relations
  frames : ∀ f ∈ fs, f.isDirect = true
  operand : ∀ e, x = some e → e.isDirect = true

/-- Since `p₀` the frames `fs` and maybe the operand `x` were read; `array` allows a whole array. -/
structure Partway (p₀ : Pass) (array : Bool) (fs : List Frame) (x : Option Expr) (t : Tally)
    (p : Pass) : Prop where
  emits : ∃ u, wordsOf u = frameWords fs ++ operandWords x ∧
    p₀.Emits u (frameCode fs ++ operandCode x) p
  operators : p.operators = fs.map Frame.op ++ p₀.operators
  standing : Standing fs
  level : ∀ e, x = some e → e.level = 0
  wellFormed : ∀ e, x = some e → e.wellFormed array = true
  whole : ∀ e, x = some e → e.isWhole = true →
    fs = [] ∧ (p.token.kind = .symbol .comma ∨ p.token.kind = .symbol .rightParen)
  values : t.values = fs.countP Frame.isBinary + x.toList.length
  parens : t.parens = fs.countP Frame.isParen
  afterOperator : t.afterOperator = x.isNone
  afterOperand : x.isSome = true → t.afterOperand = true
  assignable : t.assignable = x.any Expr.isAssignable
  stepped : t.stepped = x.any Expr.isStep
  previous : ∀ e, x = some (.paren e) → p.previous = .symbol .rightParen
  tallied : p₀.strictness = .strict → Tallied fs x t

namespace Partway

variable {p₀ p q : Pass} {array : Bool} {fs gs hs : List Frame} {x : Option Expr} {e : Expr}
  {t : Tally} {op : Operator} {k : Token} {v : List Token}

/-- Nothing has been read. -/
theorem start (hp : p.InOrder) (array : Bool) : Partway p array [] none {} p where
  emits := ⟨[], rfl, [], .refl hp, .nil⟩
  operators := rfl
  standing := .nil
  level := by simp
  wellFormed := by simp
  whole := by simp
  values := rfl
  parens := rfl
  afterOperator := rfl
  afterOperand := by simp
  assignable := rfl
  stepped := rfl
  previous := by simp
  tallied _ := ⟨rfl, by simp, by simp⟩

section

variable (h : Partway p₀ array fs x t p)
include h

theorem complete_eq : t.complete = x.isSome := by
  rw [Tally.complete, h.afterOperator]
  cases x with
  | none => rfl
  | some e => simp [h.afterOperand rfl]

theorem inOrder (hp₀ : p₀.InOrder) : p.InOrder := by
  obtain ⟨u, -, hu⟩ := h.emits
  exact hu.inOrder hp₀

theorem refused {s : Stop} (h' : p.Refused s q) : p₀.Refused s q := by
  obtain ⟨u, -, hu⟩ := h.emits
  exact hu.refused h'

theorem strictness_eq : p.strictness = p₀.strictness := by
  obtain ⟨_, -, _, his, -⟩ := h.emits
  exact his.strictness

theorem length_le : p.upcoming.length ≤ p₀.upcoming.length := by
  obtain ⟨_, -, _, his, -⟩ := h.emits
  have := his.length_eq
  omega

/-- A step that reads and writes nothing changes nothing here. -/
theorem idle (hq : p.Progress [] [] q) (ho : q.operators = p.operators) (hr : q.rest = p.rest) :
    Partway p₀ array fs x t q where
  emits := by
    obtain ⟨u, hwords, hu⟩ := h.emits
    exact ⟨u, hwords, by simpa using hu.trans ⟨[], hq, .nil⟩⟩
  operators := ho.trans h.operators
  standing := h.standing
  level := h.level
  wellFormed := h.wellFormed
  whole e he hw := by
    have ht : q.token = p.token := (List.cons.inj hr).1
    exact ht ▸ h.whole e he hw
  values := h.values
  parens := h.parens
  afterOperator := h.afterOperator
  afterOperand := h.afterOperand
  assignable := h.assignable
  stepped := h.stepped
  previous e he := hq.previous.trans (h.previous e he)
  tallied := h.tallied

/-- The operators of this expression. -/
theorem above_eq : Compile.above p₀.operators.length p.operators = fs.map Frame.op := by
  simp [Compile.above, h.operators]

end

/-- Behind the operand comes something that does not end an argument, so that it is no array. -/
theorem wellFormed_false (h : Partway p₀ array fs (some e) t p)
    (hk : p.token.kind ≠ .symbol .comma) (hk' : p.token.kind ≠ .symbol .rightParen) :
    e.wellFormed false = true := by
  refine Expr.wellFormed_of_not_isWhole (h.wellFormed e rfl) (Bool.eq_false_iff.2 fun hw => ?_)
  rcases (h.whole e rfl hw).2 with hc | hc
  · exact hk hc
  · exact hk' hc

/-- All frames closed around the operand make an expression of the language. -/
theorem wellFormed_closed (h : Partway p₀ array fs (some e) t p) :
    (plugAll fs e).wellFormed array = true := by
  cases fs with
  | nil => exact h.wellFormed e rfl
  | cons f fs =>
    have he : e.wellFormed false = true := by
      refine Expr.wellFormed_of_not_isWhole (h.wellFormed e rfl) (Bool.eq_false_iff.2 fun hw => ?_)
      simpa using (h.whole e rfl hw).1
    refine Expr.wellFormed_of_false (wellFormed_plugAll h.standing he fun f _ => ?_) _
    simp [h.level e rfl]

/-- What has been read and compiled grows by `v` and `code`. -/
theorem emits_append (h : Partway p₀ array fs x t p) {code : List Symbolic} (hq : p.Emits v code q)
    {words : List Word} {code' : List Symbolic}
    (hwords : frameWords fs ++ operandWords x ++ wordsOf v = words)
    (hcode : frameCode fs ++ operandCode x ++ code = code') :
    ∃ u, wordsOf u = words ∧ p₀.Emits u code' q := by
  obtain ⟨u, hu, hemits⟩ := h.emits
  refine ⟨u ++ v, ?_, hcode ▸ hemits.trans hq⟩
  rw [wordsOf_append, hu, hwords]

/-! ## What can come next -/

section

variable (h : Partway p₀ array fs none t p)
include h

/-- A leaf. Only the first operand can be a whole array. -/
theorem operand {allowed : Bool} (hq : p.ReadsLeaf allowed e q)
    (hallowed : allowed = true → array = true ∧ fs = []) :
    Partway p₀ array fs (some e) (t.operand e.isTarget) q where
  emits := by
    obtain ⟨v, hv, hc⟩ := hq.compiles
    exact h.emits_append hc.progress (by simp [hv]) (by simp)
  operators := by
    obtain ⟨v, hv, hc⟩ := hq.compiles
    rw [hc.operators, h.operators]
  standing := h.standing
  level := by
    rintro _ ⟨⟩
    exact Expr.level_of_isLeaf hq.leaf
  wellFormed := by
    rintro _ ⟨⟩
    cases hw : e.isWhole with
    | true =>
      have := hq.wellFormed
      cases e <;> simp_all [Expr.isWhole, Expr.wellFormed]
    | false =>
      exact Expr.wellFormed_of_false (Expr.wellFormed_of_not_isWhole hq.wellFormed hw) _
  whole := by
    rintro _ ⟨⟩ hw
    refine ⟨(hallowed ?_).2, hq.followed hw⟩
    have := hq.wellFormed
    cases e <;> simp_all [Expr.isWhole, Expr.wellFormed]
  values := by simp [Tally.operand, h.values]
  parens := h.parens
  afterOperator := rfl
  afterOperand _ := rfl
  assignable := by
    have := hq.leaf
    cases e <;> simp_all [Tally.operand, Expr.isLeaf, Expr.isAssignable]
  stepped := by
    have := hq.leaf
    cases e <;> simp_all [Tally.operand, Expr.isLeaf, Expr.isStep]
  previous := by
    rintro _ ⟨⟩
    have := hq.leaf
    simp [Expr.isLeaf] at this
  tallied hstrict := by
    have hspare := hq.spare (h.strictness_eq.trans hstrict)
    obtain ⟨hrelations, hframes, -⟩ := h.tallied hstrict
    refine ⟨?_, hframes, ?_⟩
    · rw [comparisons_append] at hrelations ⊢
      rw [operandWords_some, hspare]
      exact hrelations
    · rintro _ ⟨⟩
      exact e.isDirect_of_comparisons hspare

/-- A frame waits for an operand behind it. -/
theorem frame {f : Frame} (hf : f.wellFormed = true) (hbinary : f.isBinary = false)
    (hlevel : f.level ≤ 1) {t' : Tally} (hvalues : t'.values = t.values)
    (hparens : t'.parens = t.parens + if f.isParen then 1 else 0) (hafter : t'.afterOperator = true)
    (hassignable : t'.assignable = false) (hstepped : t'.stepped = false)
    (hrelations : t'.relations = t.relations) (hq : p.Emits [k] [] q) (hk : wordsOf [k] = f.words)
    (ho : q.operators = f.op :: p.operators) : Partway p₀ array (f :: fs) none t' q where
  emits := by
    have hcode : f.code = [] := by cases f <;> simp_all [Frame.isBinary, Frame.code]
    exact h.emits_append hq (by simp [hk, frameWords]) (by simp [frameCode, hcode])
  operators := by simp [ho, h.operators]
  standing := by
    refine h.standing.cons hf fun g _ => ?_
    rw [Operator.takesRight_iff, Operator.isLeftAssoc_iff]
    have := g.op.precedence_pos
    omega
  level := by simp
  wellFormed := by simp
  whole := by simp
  values := by simp [hvalues, h.values, hbinary]
  parens := by simp [hparens, h.parens, List.countP_cons]
  afterOperator := hafter
  afterOperand := by simp
  assignable := hassignable
  stepped := hstepped
  previous := by simp
  tallied hstrict := by
    have hcalm : comparisons f.words = 0 ∧ f.isDirect = true := by
      cases f with
      | paren => exact ⟨rfl, rfl⟩
      | prefixed op =>
        have : op.isRelational = false := by
          cases op <;> simp_all [Frame.wellFormed, Operator.isUnary, Operator.isRelational]
        exact ⟨by simp [Frame.words, this], rfl⟩
      | binary => cases hbinary
    obtain ⟨hcount, hframes, -⟩ := h.tallied hstrict
    refine ⟨?_, ?_, by simp⟩
    · simpa [frameWords, hrelations, hcalm.1] using hcount
    · simpa [hcalm.2] using hframes

/-- An operator before its operand. -/
theorem prefixed (hop : op.isUnary = true) (hq : p.Emits [k] [] q) (hk : wordsOf [k] = [op.word])
    (ho : q.operators = op :: p.operators) : Partway p₀ array (.prefixed op :: fs) none t.operator q :=
  h.frame (f := .prefixed op) hop rfl (Nat.le_of_eq ((Operator.isUnary_iff op).1 hop)) rfl rfl rfl
    rfl rfl rfl hq hk ho

/-- A parenthesis opens. -/
theorem openParen (hq : p.Emits [k] [] q) (hk : wordsOf [k] = [Symbol.word .leftParen])
    (ho : q.operators = .paren :: p.operators) : Partway p₀ array (.paren :: fs) none t.openParen q :=
  h.frame (f := .paren) rfl rfl (Nat.zero_le _) rfl rfl rfl rfl rfl rfl hq hk ho

end

/-- The operators that are not unary belong to the frames with a left operand. -/
theorem length_filter_isUnary (hgs : ∀ g ∈ gs, g.wellFormed = true)
    (hparen : ∀ g ∈ gs, g.isParen = false) :
    ((gs.map Frame.op).filter fun op => !op.isUnary).length = gs.countP Frame.isBinary := by
  rw [List.filter_map, List.length_map, List.countP_eq_length_filter]
  congr 1
  refine List.filter_congr fun g hg => ?_
  simp [Frame.isUnary_op (hgs g hg) (hparen g hg)]

theorem countP_isParen_of_not (hparen : ∀ g ∈ gs, g.isParen = false) :
    gs.countP Frame.isParen = 0 := by
  rw [List.countP_eq_zero]
  intro g hg
  simp [hparen g hg]

/-- An operator between two operands. It makes the frames `gs` apply, which leaves its left
operand. -/
theorem binary (h : Partway p₀ array (gs ++ hs) (some e) t p) (he : e.wellFormed false = true)
    (hop : op.isBinary = true) (hgs : ∀ g ∈ gs, g.op.appliesBefore op = true)
    (hhs : ∀ g ∈ hs.head?, ¬ g.op.appliesBefore op = true)
    (hassign : op.isAssignment = true → gs = [] ∧ e.isAssignable = true)
    (hq : p.Emits [k] (operatorCode gs) q) (hk : wordsOf [k] = [op.word])
    (ho : q.operators = op :: p.operators.drop gs.length) {t' : Tally} (ht' : t.Counts op t') :
    Partway p₀ array (.binary (plugAll gs e) op :: hs) none
      (t'.apply (gs.map Frame.op)).operator q := by
  have hne : op ≠ .paren := by
    rintro rfl
    simp [Operator.isBinary] at hop
  have hwf : ∀ g ∈ gs, g.wellFormed = true := fun g hg =>
    h.standing.frames g (List.mem_append_left _ hg)
  have hparen : ∀ g ∈ gs, g.isParen = false := by
    intro g hg
    rw [← Bool.not_eq_true, ← Frame.op_eq_paren_iff (hwf g hg)]
    exact ((Operator.appliesBefore_iff _ _).1 (hgs g hg)).1
  have hlevel : op.takesLeft (plugAll gs e).level = true := by
    rw [level_plugAll]
    cases hlast : gs.getLast? with
    | none => simp [h.level e rfl]
    | some g =>
      have hg := List.mem_of_getLast? hlast
      simp only [Option.map_some, Option.getD_some, Frame.level_eq (hparen g hg)]
      exact ((Operator.appliesBefore_iff _ _).1 (hgs g hg)).2
  have hleft : (plugAll gs e).wellFormed false = true := by
    refine wellFormed_plugAll h.standing.left he fun f _ => ?_
    simp [h.level e rfl]
  have hframe : (Frame.binary (plugAll gs e) op).wellFormed = true := by
    simp only [Frame.wellFormed, hop, hlevel, hleft, Bool.and_true, Bool.true_and, Bool.or_eq_true,
      Bool.not_eq_true']
    cases ha : op.isAssignment with
    | false => exact .inl rfl
    | true =>
      obtain ⟨rfl, he'⟩ := hassign ha
      exact .inr he'
  have hwords : frameWords (gs ++ hs) ++ e.words ++ [op.word] =
      frameWords (.binary (plugAll gs e) op :: hs) := by
    simp [frameWords, Frame.words, words_plugAll hparen]
  exact {
    emits := by
      refine h.emits_append hq ?_ ?_
      · rw [operandWords_some, hk, hwords, operandWords_none, List.append_nil]
      · simp [frameCode, Frame.code, postorder_plugAll]
    operators := by simp [ho, h.operators, Frame.op]
    standing := by
      refine h.standing.right.cons hframe fun g hg => ?_
      exact Operator.takesRight_of_not_appliesBefore hne (hhs g hg)
    level := by simp
    wellFormed := by simp
    whole := by simp
    values := by
      have := h.values
      simp only [List.countP_append, Option.toList_some, List.length_singleton] at this
      simp only [Tally.operator, Tally.apply, length_filter_isUnary hwf hparen, ht'.values,
        List.countP_cons, Frame.isBinary, Option.toList_none, List.length_nil, if_true]
      omega
    parens := by
      have := h.parens
      simp only [List.countP_append, countP_isParen_of_not hparen] at this
      simp [Tally.operator, Tally.apply, ht'.parens, this, Frame.isParen]
    afterOperator := rfl
    afterOperand := by simp
    assignable := rfl
    stepped := rfl
    previous := by simp
    tallied hstrict := by
      obtain ⟨hcount, hframes, hoperand⟩ := h.tallied hstrict
      have hleft := isDirect_plugAll (fun g hg => hframes g (List.mem_append_left _ hg))
        (hoperand e rfl)
      refine ⟨?_, fun f hf => ?_, by simp⟩
      · rw [← hwords, operandWords_none, List.append_nil, comparisons_append,
          ← operandWords_some, hcount]
        simp [Tally.operator, Tally.apply, ht'.relations]
      · rcases List.mem_cons.1 hf with rfl | hf
        · exact hleft
        · exact hframes f (List.mem_append_right _ hf) }

/-- A parenthesis closes, and the frames inside it apply. -/
theorem closeParen (h : Partway p₀ array (gs ++ .paren :: hs) (some e) t p)
    (hparen : ∀ g ∈ gs, g.isParen = false) (hq : p.Emits [k] (operatorCode gs) q)
    (hk : k.kind = .symbol .rightParen) (ho : q.operators = p.operators.drop (gs.length + 1)) :
    Partway p₀ array hs (some (.paren (plugAll gs e)))
      ((t.apply (gs.map Frame.op)).closeParen (gs.map Frame.op)) q := by
  have hwf : ∀ g ∈ gs, g.wellFormed = true := fun g hg =>
    h.standing.frames g (List.mem_append_left _ hg)
  have he : e.wellFormed false = true := by
    refine Expr.wellFormed_of_not_isWhole (h.wellFormed e rfl) (Bool.eq_false_iff.2 fun hw => ?_)
    simpa using (h.whole e rfl hw).1
  have hinner : (plugAll gs e).wellFormed false = true := by
    refine wellFormed_plugAll h.standing.left he fun f _ => ?_
    simp [h.level e rfl]
  have hwords : frameWords (gs ++ .paren :: hs) ++ e.words ++ [Symbol.word .rightParen] =
      frameWords hs ++ (Expr.paren (plugAll gs e)).words := by
    simp [frameWords, Frame.words, Expr.words, words_plugAll hparen]
  exact {
    emits := by
      refine h.emits_append hq ?_ ?_
      · rw [operandWords_some, wordsOf_symbol hk]
        exact hwords
      · simp [frameCode, Frame.code, Expr.postorder, postorder_plugAll]
    operators := by
      have hsplit : (gs ++ Frame.paren :: hs).map Frame.op ++ p₀.operators =
          (gs.map Frame.op ++ [.paren]) ++ (hs.map Frame.op ++ p₀.operators) := by
        simp [Frame.op]
      rw [ho, h.operators, hsplit, List.drop_left' (by simp)]
    standing := h.standing.right.tail
    level := by
      rintro _ ⟨⟩
      rfl
    wellFormed := by
      rintro _ ⟨⟩
      simpa [Expr.wellFormed] using hinner
    whole := by
      rintro _ ⟨⟩
      simp [Expr.isWhole]
    values := by
      have := h.values
      simp only [List.countP_append, List.countP_cons, Frame.isBinary, Option.toList_some,
        List.length_singleton] at this
      simp only [Tally.closeParen, Tally.apply, length_filter_isUnary hwf hparen,
        Option.toList_some, List.length_singleton]
      simp only [Bool.false_eq_true, if_false] at this
      omega
    parens := by
      have := h.parens
      simp only [List.countP_append, countP_isParen_of_not hparen, List.countP_cons,
        Frame.isParen] at this
      simp only [Tally.closeParen, Tally.apply]
      simp only [if_true] at this
      omega
    afterOperator := rfl
    afterOperand _ := h.afterOperand rfl
    assignable := by
      simp only [Tally.closeParen, Tally.apply, h.assignable, Option.any_some, Expr.isAssignable]
      cases gs with
      | nil => simp [plugAll]
      | cons g gs => simp [isAssignable_plugAll hparen]
    stepped := rfl
    previous := by
      obtain ⟨is, his, -⟩ := hq
      intro _ _
      simpa [hk] using his.previous
    tallied hstrict := by
      obtain ⟨hcount, hframes, hoperand⟩ := h.tallied hstrict
      refine ⟨?_, fun f hf => hframes f (by simp [hf]), ?_⟩
      · rw [operandWords_some, ← hwords, comparisons_append, ← operandWords_some, hcount]
        rfl
      · rintro _ ⟨⟩
        exact isDirect_plugAll (fun g hg => hframes g (List.mem_append_left _ hg)) (hoperand e rfl) }

/-- The operand `e` is now part of the operand `e'`, of which the rest was read. -/
theorem extend (h : Partway p₀ array fs x t p) {e' : Expr} (hlevel : e'.level = 0)
    (hwf : e'.wellFormed false = true) (hassignable : e'.isAssignable = false) {t' : Tally}
    (hvalues : t'.values + x.toList.length = t.values + 1) (hparens : t'.parens = t.parens)
    (hoperator : t'.afterOperator = false) (hoperand : t'.afterOperand = true)
    (hassign : t'.assignable = false) (hstepped : t'.stepped = e'.isStep)
    (hparen : ∀ e, e' ≠ .paren e) (hrelations : t'.relations = t.relations) {code : List Symbolic}
    (hq : p.Emits v code q)
    (htallied : p₀.strictness = .strict → Tallied fs x t →
      comparisons (wordsOf v) = 0 ∧ e'.isDirect = true)
    (hwords : operandWords x ++ wordsOf v = e'.words) (hcode : operandCode x ++ code = e'.postorder)
    (ho : q.operators = p.operators) : Partway p₀ array fs (some e') t' q where
  emits := h.emits_append hq (by simp [hwords]) (by simp [hcode])
  operators := ho.trans h.operators
  standing := h.standing
  level := by
    rintro _ ⟨⟩
    exact hlevel
  wellFormed := by
    rintro _ ⟨⟩
    exact Expr.wellFormed_of_false hwf _
  whole := by
    rintro _ ⟨⟩
    simp [Expr.isWhole_of_wellFormed hwf]
  values := by
    have := h.values
    simp only [Option.toList_some, List.length_singleton]
    omega
  parens := hparens.trans h.parens
  afterOperator := hoperator
  afterOperand _ := hoperand
  assignable := by simp [hassign, hassignable]
  stepped := by simp [hstepped]
  previous := by
    rintro e ⟨⟩
    exact absurd rfl (hparen e)
  tallied hstrict := by
    have ht := h.tallied hstrict
    obtain ⟨hcalm, hdirect⟩ := htallied hstrict ht
    refine ⟨?_, ht.frames, ?_⟩
    · rw [operandWords_some, ← hwords, ← List.append_assoc, comparisons_append, ht.relations, hcalm,
        hrelations, Nat.add_zero]
    · rintro _ ⟨⟩
      exact hdirect

/-- The operand is cut to an integer. -/
theorem trunc (h : Partway p₀ array fs (some e) t p) (he : e.wellFormed false = true)
    (hq : p.Compiles [k] [.plain .trunc] q) (hk : k.kind = .symbol .dollar) :
    Partway p₀ array fs (some (.trunc e)) t.truncated q :=
  h.extend rfl (by simp [Expr.wellFormed, h.level e rfl, he]) rfl rfl rfl
    (by simp [Tally.truncated, h.afterOperator]) rfl rfl rfl (by simp) rfl hq.progress
    (fun _ ht => ⟨by rw [wordsOf_symbol hk]; rfl, ht.operand e rfl⟩)
    (by simp [wordsOf_symbol hk, Expr.words]) (by simp [Expr.postorder]) hq.operators

/-- A step behind its target. -/
theorem postStep (h : Partway p₀ array fs (some e) t p) (he : e.wellFormed false = true)
    (htarget : e.isTarget = true) {up : Bool}
    (hq : p.Compiles [k] [.plain (if up then .inc else .dec)] q)
    (hk : k.kind = .symbol (Expr.stepSymbol up)) :
    Partway p₀ array fs (some (.postStep e up)) t.postStep q :=
  h.extend rfl (by simp [Expr.wellFormed, htarget, he]) rfl rfl rfl rfl (h.afterOperand rfl) rfl
    rfl (by simp) rfl hq.progress
    (fun _ ht => ⟨by rw [wordsOf_symbol hk]; cases up <;> rfl, ht.operand e rfl⟩)
    (by simp [wordsOf_symbol hk, Expr.words]) (by simp [Expr.postorder]) hq.operators

/-- A step before its target. -/
theorem preStep (h : Partway p₀ array fs none t p) (he : e.wellFormed false = true)
    (htarget : e.isTarget = true) {up : Bool} (hq : p.Compiles v (Expr.preStep up e).postorder q)
    (hv : wordsOf v = (Expr.preStep up e).words)
    (hspare : p₀.strictness = .strict → comparisons (Expr.preStep up e).words = 0) :
    Partway p₀ array fs (some (.preStep up e)) t.preStep q :=
  h.extend rfl (by simp [Expr.wellFormed, htarget, he]) rfl rfl rfl rfl rfl rfl rfl (by simp) rfl
    hq.progress (fun hstrict _ => ⟨hv ▸ hspare hstrict, Expr.isDirect_of_comparisons _ (hspare hstrict)⟩)
    (by simp [hv]) (by simp) hq.operators

end Partway

end DeskCalc
