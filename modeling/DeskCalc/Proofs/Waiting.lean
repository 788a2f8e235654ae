import DeskCalc.Proofs.Grammar
import Mathlib.Data.List.Chain

/-!
# Operators that wait, with their left operands

In the middle of an expression some operators have been read whose right operand is not complete.
A `Frame` is such an operator together with its left operand, which is complete, or an open
parenthesis. The frames, the innermost first, and maybe an operand behind them are all that has
been read of the expression.

`Standing` says that the frames nest: each one can be the right operand of the one around it. Then
closing frames gives well-formed expressions (`wellFormed_plugAll`). In the other direction every
expression is what its right edge, a list of frames, makes of the operand at its end
(`plugAll_edge`).
-/

namespace DeskCalc

variable {fs : List Frame} {f : Frame}

namespace Operator

variable {op : Operator} {level : Nat}

/-- The grouping of an operator follows from its precedence. -/
theorem isLeftAssoc_iff (op : Operator) :
    op.isLeftAssoc = true ↔ 5 ≤ op.precedence ∧ op.precedence ≠ 8 ∧ op.precedence < 255 := by
  cases op with
  | arith op => cases op <;> decide
  | _ => simp [isLeftAssoc, precedence]

theorem precedence_pos (op : Operator) : 0 < op.precedence := by
  cases op with
  | arith op => cases op <;> decide
  | _ => simp [precedence]

theorem precedence_le (h : op ≠ paren) : op.precedence ≤ 11 := by
  cases op with
  | arith op => cases op <;> decide
  | paren => exact absurd rfl h
  | _ => simp [precedence]

theorem isUnary_iff (op : Operator) : op.isUnary = true ↔ op.precedence = 1 := by
  cases op with
  | arith op => cases op <;> decide
  | _ => simp [isUnary, precedence]

theorem isAssignment_iff (op : Operator) : op.isAssignment = true ↔ op.precedence = 8 := by
  cases op with
  | arith op => cases op <;> decide
  | _ => simp [isAssignment, precedence]

theorem takesLeft_iff (op : Operator) (level : Nat) :
    op.takesLeft level = true ↔
      level < op.precedence ∨ (level = op.precedence ∧ op.isLeftAssoc = true) := by
  simp [takesLeft]

theorem takesRight_iff (op : Operator) (level : Nat) :
    op.takesRight level = true ↔
      level < op.precedence ∨ (level = op.precedence ∧ ¬ op.isLeftAssoc = true) := by
  simp [takesRight]

/-- Whatever binds tighter than all operators can stand on either side. -/
@[simp] theorem takesRight_zero (op : Operator) : op.takesRight 0 = true :=
  (takesRight_iff op 0).2 (.inl op.precedence_pos)

@[simp] theorem takesLeft_zero (op : Operator) : op.takesLeft 0 = true :=
  (takesLeft_iff op 0).2 (.inl op.precedence_pos)

theorem appliesBefore_iff (top op : Operator) :
    top.appliesBefore op = true ↔ top ≠ paren ∧ op.takesLeft top.precedence = true := by
  simp [appliesBefore, takesLeft]

/-- A waiting operator that does not apply yet can have the incoming one in its right operand. -/
theorem takesRight_of_not_appliesBefore {top : Operator} (hop : op ≠ paren)
    (h : ¬ top.appliesBefore op = true) : top.takesRight op.precedence = true := by
  rw [appliesBefore_iff, takesLeft_iff, isLeftAssoc_iff] at h
  rw [takesRight_iff, isLeftAssoc_iff]
  have hle := precedence_le hop
  by_cases ht : top = paren
  · subst ht
    left
    exact Nat.lt_of_le_of_lt hle (by decide)
  · have h' := not_and.1 h ht
    omega

/-- A waiting operator does not apply before one that belongs to its right operand. -/
theorem not_appliesBefore_of_takesRight {top : Operator} (h : top.takesRight op.precedence = true) :
    ¬ top.appliesBefore op = true := by
  rw [appliesBefore_iff, takesLeft_iff, isLeftAssoc_iff]
  rw [takesRight_iff, isLeftAssoc_iff] at h
  rintro ⟨-, h'⟩
  omega

theorem takesLeft_of_le {level' : Nat} (h : op.takesLeft level = true) (hle : level' ≤ level) :
    op.takesLeft level' = true := by
  rw [takesLeft_iff] at h ⊢
  rcases h with h | ⟨h, hleft⟩
  · left
    omega
  · rcases Nat.lt_or_eq_of_le hle with hlt | rfl
    · left
      omega
    · exact .inr ⟨h, hleft⟩

theorem takesRight_of_le {level' : Nat} (h : op.takesRight level = true) (hle : level' ≤ level) :
    op.takesRight level' = true := by
  rw [takesRight_iff] at h ⊢
  rcases h with h | ⟨h, hright⟩
  · left
    omega
  · rcases Nat.lt_or_eq_of_le hle with hlt | rfl
    · left
      omega
    · exact .inr ⟨h, hright⟩

theorem le_of_takesLeft (h : op.takesLeft level = true) : level ≤ op.precedence := by
  rw [takesLeft_iff] at h
  omega

theorem le_of_takesRight (h : op.takesRight level = true) : level ≤ op.precedence := by
  rw [takesRight_iff] at h
  omega

end Operator

/-- An operator that waits, with its left operand, or an open parenthesis. -/
inductive Frame
  | paren
  | prefixed (op : Operator)
  | binary (left : Expr) (op : Operator)

namespace Frame

variable {f : Frame}

/-- The entry of the operator stack. -/
def op : Frame → Operator
  | paren => .paren
  | prefixed op => op
  | binary _ op => op

/-- What has been read of a frame. -/
def words : Frame → List Word
  | paren => [Symbol.word .leftParen]
  | prefixed op => [op.word]
  | binary left op => left.words ++ [op.word]

/-- What has been compiled of a frame. -/
def code : Frame → List Symbolic
  | binary left _ => left.postorder
  | _ => []

/-- The expression with the right operand in its place. -/
def plug : Frame → Expr → Expr
  | paren, e => .paren e
  | prefixed op, e => .prefixed op e
  | binary left op, e => .binary op left e

/-- How tightly the expression will hold together. -/
def level : Frame → Nat
  | paren => 0
  | prefixed op => op.precedence
  | binary _ op => op.precedence

/-- The frame is the beginning of an expression of the language. -/
def wellFormed : Frame → Bool
  | paren => true
  | prefixed op => op.isUnary
  | binary left op =>
    op.isBinary && op.takesLeft left.level && (!op.isAssignment || left.isAssignable) &&
      left.wellFormed false

/-- The frame is an open parenthesis. -/
def isParen : Frame → Bool
  | paren => true
  | _ => false

/-- The frame has a left operand. -/
def isBinary : Frame → Bool
  | binary _ _ => true
  | _ => false

theorem op_eq_paren_iff (h : f.wellFormed = true) : f.op = .paren ↔ f.isParen = true := by
  cases f with
  | paren => simp [op, isParen]
  | prefixed op =>
    simp only [wellFormed] at h
    simp only [Frame.op, isParen, Bool.false_eq_true, iff_false]
    rintro rfl
    simp [Operator.isUnary] at h
  | binary left op =>
    simp only [wellFormed, Operator.isBinary, Bool.and_eq_true] at h
    simpa [Frame.op, isParen] using h.1.1.1.2

theorem eq_paren_of_op (h : f.wellFormed = true) (hop : f.op = .paren) : f = paren := by
  have := (op_eq_paren_iff h).1 hop
  cases f <;> simp_all [isParen]

theorem level_plug (f : Frame) (e : Expr) : (f.plug e).level = f.level := by
  cases f <;> rfl

theorem level_eq (h : f.isParen = false) : f.level = f.op.precedence := by
  cases f <;> simp_all [level, op, isParen]

theorem isUnary_op (h : f.wellFormed = true) (hp : f.isParen = false) : f.op.isUnary = !f.isBinary := by
  cases f with
  | paren => simp [isParen] at hp
  | prefixed op => simpa [isBinary, Frame.op, wellFormed] using h
  | binary left op =>
    simp only [wellFormed, Operator.isBinary, Bool.and_eq_true] at h
    simpa [isBinary, Frame.op] using h.1.1.1.1

/-- Closing a frame gives an expression of the language. -/
theorem wellFormed_plug {e : Expr} (hf : f.wellFormed = true) (he : e.wellFormed false = true)
    (hfit : f.op.takesRight e.level = true) : (f.plug e).wellFormed false = true := by
  cases f with
  | paren => simpa [plug, Expr.wellFormed] using he
  | prefixed op => simp_all [plug, Expr.wellFormed, wellFormed, Frame.op]
  | binary left op => simp_all [plug, Expr.wellFormed, wellFormed, Frame.op]

theorem words_plug (e : Expr) (h : f.isParen = false) : (f.plug e).words = f.words ++ e.words := by
  cases f <;> simp_all [plug, Expr.words, words, isParen]

theorem postorder_plug (f : Frame) (e : Expr) :
    (f.plug e).postorder =
      f.code ++ e.postorder ++ (f.op.opcode?.map Symbolic.plain).toList := by
  cases f <;> simp [plug, Expr.postorder, code, op, Operator.opcode?]

end Frame

/-- The innermost open parenthesis. -/
theorem exists_paren_split (hf : f ∈ fs) (hp : f.isParen = true) :
    ∃ gs hs, fs = gs ++ .paren :: hs ∧ ∀ g ∈ gs, g.isParen = false := by
  induction fs with
  | nil => cases hf
  | cons g fs ih =>
    cases hg : g.isParen with
    | true =>
      obtain rfl : g = .paren := by cases g <;> simp_all [Frame.isParen]
      exact ⟨[], fs, rfl, by simp⟩
    | false =>
      have hmem : f ∈ fs := (List.mem_cons.1 hf).resolve_left (by rintro rfl; simp [hp] at hg)
      obtain ⟨gs, hs, rfl, hgs⟩ := ih hmem
      exact ⟨g :: gs, hs, rfl, by simpa [hg] using hgs⟩

/-- What has been read of some frames, the innermost first. -/
def frameWords : List Frame → List Word
  | [] => []
  | f :: fs => frameWords fs ++ f.words

/-- What has been compiled of some frames, the innermost first. -/
def frameCode : List Frame → List Symbolic
  | [] => []
  | f :: fs => frameCode fs ++ f.code

/-- Close some frames, the innermost first, around an operand. -/
def plugAll : List Frame → Expr → Expr
  | [], e => e
  | f :: fs, e => plugAll fs (f.plug e)

/-- The instructions of the operators of some frames. -/
def operatorCode (fs : List Frame) : List Symbolic :=
  fs.flatMap fun f => (f.op.opcode?.map Symbolic.plain).toList

@[simp] theorem frameWords_append (fs gs : List Frame) :
    frameWords (fs ++ gs) = frameWords gs ++ frameWords fs := by
  induction fs with
  | nil => simp [frameWords]
  | cons f fs ih => simp [frameWords, ih]

@[simp] theorem frameCode_append (fs gs : List Frame) :
    frameCode (fs ++ gs) = frameCode gs ++ frameCode fs := by
  induction fs with
  | nil => simp [frameCode]
  | cons f fs ih => simp [frameCode, ih]

theorem frameCode_eq_nil (h : ∀ f ∈ fs, f = .paren) : frameCode fs = [] := by
  induction fs with
  | nil => rfl
  | cons f fs ih =>
    rw [frameCode, ih fun g hg => h g (List.mem_cons_of_mem _ hg), h f (by simp)]
    rfl

theorem frameWords_eq_replicate (h : ∀ f ∈ fs, f = .paren) :
    frameWords fs = List.replicate fs.length (Symbol.word .leftParen) := by
  induction fs with
  | nil => rfl
  | cons f fs ih =>
    rw [frameWords, ih fun g hg => h g (List.mem_cons_of_mem _ hg), h f (by simp),
      List.length_cons, List.replicate_succ']
    rfl

theorem plugAll_append (fs gs : List Frame) (e : Expr) :
    plugAll (fs ++ gs) e = plugAll gs (plugAll fs e) := by
  induction fs generalizing e with
  | nil => rfl
  | cons f fs ih => exact ih _

theorem words_plugAll (h : ∀ f ∈ fs, f.isParen = false) (e : Expr) :
    (plugAll fs e).words = frameWords fs ++ e.words := by
  induction fs generalizing e with
  | nil => rfl
  | cons f fs ih =>
    rw [plugAll, ih (fun g hg => h g (List.mem_cons_of_mem _ hg)), frameWords,
      Frame.words_plug e (h f (by simp)), List.append_assoc]

theorem postorder_plugAll (fs : List Frame) (e : Expr) :
    (plugAll fs e).postorder = frameCode fs ++ e.postorder ++ operatorCode fs := by
  induction fs generalizing e with
  | nil => simp [plugAll, frameCode, operatorCode]
  | cons f fs ih => simp [plugAll, ih, Frame.postorder_plug, frameCode, operatorCode]

theorem level_plugAll (fs : List Frame) (e : Expr) :
    (plugAll fs e).level = (fs.getLast?.map Frame.level).getD e.level := by
  induction fs generalizing e with
  | nil => rfl
  | cons f fs ih =>
    rw [plugAll, ih, Frame.level_plug, List.getLast?_cons]
    cases fs.getLast? <;> rfl

/-- What an operator applies to cannot be assigned to. -/
theorem isAssignable_plugAll (h : ∀ g ∈ f :: fs, g.isParen = false) (e : Expr) :
    (plugAll (f :: fs) e).isAssignable = false := by
  induction fs generalizing f e with
  | nil =>
    have := h f (by simp)
    cases f <;> simp_all [plugAll, Frame.plug, Frame.isParen, Expr.isAssignable, Expr.isTarget]
  | cons g fs ih => exact ih (fun k hk => h k (List.mem_cons_of_mem _ hk)) _

/-- The frames nest, each one as the right operand of the one around it. -/
structure Standing (fs : List Frame) : Prop where
  frames : ∀ f ∈ fs, f.wellFormed = true
  nested : fs.IsChain fun f g => g.op.takesRight f.level = true

theorem Standing.nil : Standing [] := ⟨by simp, .nil⟩

theorem Standing.cons (h : Standing fs) (hf : f.wellFormed = true)
    (hfit : ∀ g ∈ fs.head?, g.op.takesRight f.level = true) : Standing (f :: fs) := by
  refine ⟨?_, ?_⟩
  · intro g hg
    rcases List.mem_cons.1 hg with rfl | hg
    · exact hf
    · exact h.frames g hg
  · cases fs with
    | nil => exact .singleton f
    | cons g fs => exact .cons_cons (hfit g (by simp)) h.nested

theorem Standing.tail (h : Standing (f :: fs)) : Standing fs :=
  ⟨fun g hg => h.frames g (List.mem_cons_of_mem _ hg), h.nested.tail⟩

theorem Standing.right {gs : List Frame} (h : Standing (fs ++ gs)) : Standing gs := by
  induction fs with
  | nil => exact h
  | cons f fs ih => exact ih h.tail

theorem Standing.left {gs : List Frame} (h : Standing (fs ++ gs)) : Standing fs :=
  ⟨fun f hf => h.frames f (List.mem_append_left _ hf), h.nested.left_of_append⟩

/-- Closing frames around an operand that fits gives an expression of the language. -/
theorem wellFormed_plugAll (h : Standing fs) {e : Expr} (he : e.wellFormed false = true)
    (hfit : ∀ f ∈ fs.head?, f.op.takesRight e.level = true) :
    (plugAll fs e).wellFormed false = true := by
  induction fs generalizing e with
  | nil => exact he
  | cons f fs ih =>
    refine ih h.tail (Frame.wellFormed_plug (h.frames f (by simp)) he (hfit f (by simp))) ?_
    intro g hg
    rw [Frame.level_plug]
    cases fs with
    | nil => simp at hg
    | cons g' fs =>
      cases hg
      exact (List.isChain_cons_cons.1 h.nested).1

/-- The outermost operator decides whether the expression assigns. -/
theorem isAssignment_plugAll (h : Standing fs) (hp : ∀ f ∈ fs, f.isParen = false) {e : Expr}
    (he : e.level = 0) :
    (plugAll fs e).isAssignment = (fs.map Frame.op).getLast?.any Operator.isAssignment := by
  rcases fs.eq_nil_or_concat' with rfl | ⟨gs, g, rfl⟩
  · cases e with
    | binary op left right => exact absurd he (Nat.ne_of_gt op.precedence_pos)
    | _ => rfl
  · have hg := h.frames g (by simp)
    have hgp := hp g (by simp)
    rw [plugAll_append]
    cases g with
    | paren => simp [Frame.isParen] at hgp
    | binary left op => simp [plugAll, Frame.plug, Frame.op, Expr.isAssignment]
    | prefixed op =>
      have hunary : op.isUnary = true := hg
      cases op <;>
        simp_all [plugAll, Frame.plug, Frame.op, Expr.isAssignment, Operator.isUnary,
          Operator.isAssignment]

/-- What an operator applies to is no step. -/
theorem isStep_plugAll (hp : ∀ f ∈ fs, f.isParen = false) (e : Expr) :
    (plugAll fs e).isStep = (e.isStep && fs.isEmpty) := by
  rcases fs.eq_nil_or_concat' with rfl | ⟨gs, g, rfl⟩
  · simp [plugAll]
  · rw [plugAll_append]
    have hgp := hp g (by simp)
    cases g <;> simp_all [plugAll, Frame.plug, Frame.isParen, Expr.isStep]

/-! ## The right edge of an expression -/

namespace Expr

theorem level_le {e : Expr} {array : Bool} (h : e.wellFormed array = true) : e.level ≤ 11 := by
  cases e with
  | prefixed op e =>
    simp only [wellFormed, Bool.and_eq_true] at h
    simp [level, (Operator.isUnary_iff op).1 h.1.1]
  | binary op left right =>
    simp only [wellFormed, Bool.and_eq_true, Operator.isBinary, bne_iff_ne] at h
    exact Operator.precedence_le h.1.1.1.1.1.2
  | _ => simp [level]

/-- The operators that still wait when the last operand of the expression has been read. -/
def edge : Expr → List Frame
  | prefixed op e => e.edge ++ [.prefixed op]
  | binary op left right => right.edge ++ [.binary left op]
  | _ => []

/-- The last operand of the expression. -/
def tip : Expr → Expr
  | prefixed _ e => e.tip
  | binary _ _ right => right.tip
  | e => e

theorem edge_of_level {e : Expr} (h : e.level = 0) : e.edge = [] ∧ e.tip = e := by
  cases e with
  | prefixed op e => exact absurd h (Nat.ne_of_gt op.precedence_pos)
  | binary op left right => exact absurd h (Nat.ne_of_gt op.precedence_pos)
  | _ => exact ⟨rfl, rfl⟩

theorem plugAll_edge : (e : Expr) → plugAll e.edge e.tip = e
  | prefixed op e => by
    rw [edge, tip, plugAll_append, plugAll_edge e]
    rfl
  | binary op left right => by
    rw [edge, tip, plugAll_append, plugAll_edge right]
    rfl
  | number _ | string _ | var _ | elem _ _ | setting _ | whole _ | call _ _ | query _ | unary _ _
  | scaleOf _ | modexp _ _ _ | divmod _ _ _ | preStep _ _ | postStep _ _ | trunc _ | paren _ => rfl

theorem isParen_of_mem_edge : (e : Expr) → ∀ f ∈ e.edge, f.isParen = false
  | prefixed op e => by
    intro f hf
    rcases List.mem_append.1 hf with hf | hf
    · exact isParen_of_mem_edge e f hf
    · cases List.mem_singleton.1 hf
      rfl
  | binary op left right => by
    intro f hf
    rcases List.mem_append.1 hf with hf | hf
    · exact isParen_of_mem_edge right f hf
    · cases List.mem_singleton.1 hf
      rfl
  | number _ | string _ | var _ | elem _ _ | setting _ | whole _ | call _ _ | query _ | unary _ _
  | scaleOf _ | modexp _ _ _ | divmod _ _ _ | preStep _ _ | postStep _ _ | trunc _ | paren _ => by
    simp [edge]

/-- The operators on the right edge bind at least as tightly as the expression. -/
theorem level_le_of_mem_edge : (e : Expr) → e.wellFormed false = true →
    ∀ f ∈ e.edge, f.op.precedence ≤ e.level
  | prefixed op e => by
    intro h f hf
    simp only [wellFormed, Bool.and_eq_true] at h
    rcases List.mem_append.1 hf with hf | hf
    · exact (level_le_of_mem_edge e h.2 f hf).trans (Operator.le_of_takesRight h.1.2)
    · cases List.mem_singleton.1 hf
      exact Nat.le_refl _
  | binary op left right => by
    intro h f hf
    simp only [wellFormed, Bool.and_eq_true] at h
    rcases List.mem_append.1 hf with hf | hf
    · exact (level_le_of_mem_edge right h.2 f hf).trans (Operator.le_of_takesRight h.1.1.1.2)
    · cases List.mem_singleton.1 hf
      exact Nat.le_refl _
  | number _ | string _ | var _ | elem _ _ | setting _ | whole _ | call _ _ | query _ | unary _ _
  | scaleOf _ | modexp _ _ _ | divmod _ _ _ | preStep _ _ | postStep _ _ | trunc _ | paren _ => by
    simp [edge]

end Expr

end DeskCalc
