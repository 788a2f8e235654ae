import DeskCalc.Proofs.Compiles

/-!
# What code does to the stack

An entry of the stack is a value, a reference to something that can be assigned to, or a whole
array. `Opcode.effect` says what an instruction does to the entries. It has no answer where the
instruction finds too few of them, a target that is no reference, or an array where only a function
or one of the builtins `length` and `asciify` could take it.

The code of an expression leaves exactly one entry (`Expr.execute_postorder`), and if nobody wants
its value it leaves none (`Expr.execute_settled`).
-/

namespace DeskCalc

variable {stack stack' : List Entry} {is : List Command}

/-- An entry of the stack. -/
inductive Entry
  | value
  /-- A variable, an element of an array, or a setting. -/
  | reference
  /-- A whole array. -/
  | array
deriving DecidableEq, Repr

namespace Entry

/-- The entry can be read as a value. -/
def isScalar : Entry → Bool
  | array => false
  | _ => true

@[simp] theorem isScalar_value : value.isScalar = true := rfl

@[simp] theorem isScalar_reference : reference.isScalar = true := rfl

/-- Take off the top entries, which can be read as values. -/
def takeScalars : Nat → List Entry → Option (List Entry)
  | 0, stack => some stack
  | _ + 1, [] => none
  | n + 1, x :: stack => if x.isScalar then takeScalars n stack else none

/-- Take off the top entries, whatever they are. -/
def takeAny (n : Nat) (stack : List Entry) : Option (List Entry) :=
  if n ≤ stack.length then some (stack.drop n) else none

/-- Take off the reference on top. -/
def takeReference : List Entry → Option (List Entry)
  | reference :: stack => some stack
  | _ => none

end Entry

open Entry

/-- What an instruction with its operands does to the stack, the top of which comes first. -/
def Opcode.effect (op : Opcode) (operands : List Nat) (stack : List Entry) :
    Option (List Entry) :=
  match op with
  | .var | .setting _ => some (.reference :: stack)
  | .array => some (.array :: stack)
  | .num | .str | .zero | .one | .query _ => some (.value :: stack)
  | .elem => (takeScalars 1 stack).map (.reference :: ·)
  | .neg | .not | .trunc | .scaleOf | .sqrt | .abs | .irand =>
    (takeScalars 1 stack).map (.value :: ·)
  | .length | .asciify => (takeAny 1 stack).map (.value :: ·)
  | .arith _ | .relation _ | .or | .and => (takeScalars 2 stack).map (.value :: ·)
  | .modexp => (takeScalars 3 stack).map (.value :: ·)
  | .divmod => (takeScalars 2 stack).map ([.value, .value] ++ ·)
  | .swap =>
    match stack with
    | x :: y :: stack => some (y :: x :: stack)
    | _ => none
  | .assign _ => ((takeScalars 1 stack).bind takeReference).map (.value :: ·)
  | .store _ => (takeScalars 1 stack).bind takeReference
  | .inc | .dec => (takeReference stack).map (.value :: ·)
  | .call => (takeAny (operands.headD 0) stack).map (.value :: ·)
  | .ret | .print | .printPop | .printStr | .printStream | .pop | .jumpZero => takeScalars 1 stack
  | .ret0 | .retVoid | .jump | .halt => some stack

/-- The instruction can continue at a label. -/
@[simp] def Opcode.isJump : Opcode → Bool
  | .jump | .jumpZero => true
  | _ => false

/-- What an instruction does to the stack, where a jump has to leave it empty. -/
def Opcode.step (op : Opcode) (operands : List Nat) (stack : List Entry) : Option (List Entry) :=
  if op.isJump then (op.effect operands stack).filter (·.isEmpty) else op.effect operands stack

/-- What some instructions do to the stack, one after the other. Operands are numbers below
`wordBound`. -/
def execute : List Command → List Entry → Option (List Entry)
  | [], stack => some stack
  | (op, operands) :: is, stack =>
    (op.step (operands.map (· % wordBound)) stack).bind (execute is)

theorem execute_append (is js : List Command) (stack : List Entry) :
    execute (is ++ js) stack = (execute is stack).bind (execute js) := by
  induction is generalizing stack with
  | nil => rfl
  | cons i is ih =>
    obtain ⟨op, operands⟩ := i
    simp only [List.cons_append, execute]
    cases op.step (operands.map (· % wordBound)) stack with
    | none => rfl
    | some stack' => exact ih stack'

/-- What instructions read from code do to the stack, one after the other. -/
def simulate (is : List Instruction) (stack : List Entry) : Option (List Entry) :=
  is.foldlM (fun stack i => i.op.effect i.operands stack) stack

theorem Opcode.effect_of_step {op : Opcode} {operands : List Nat}
    (h : op.step operands stack = some stack') :
    op.effect operands stack = some stack' ∧ (op.isJump = true → stack' = []) := by
  unfold step at h
  split at h
  · rw [Option.filter_eq_some_iff] at h
    exact ⟨h.1, fun _ => List.isEmpty_iff.1 h.2⟩
  · next hjump => exact ⟨h, fun hyes => absurd hyes hjump⟩

/-- What is read from code does to the stack what was written. -/
theorem simulate_located (h : execute is stack = some stack') (offset : Nat) :
    simulate (Code.located offset is) stack = some stack' := by
  induction is generalizing offset stack with
  | nil => exact h
  | cons i is ih =>
    obtain ⟨op, operands⟩ := i
    obtain ⟨between, hstep, hrest⟩ := Option.bind_eq_some_iff.1 h
    rw [simulate, Code.located, List.foldlM_cons, (Opcode.effect_of_step hstep).1]
    exact ih hrest _

/-- A jump leaves the stack empty. -/
theorem simulate_of_isJump (h : execute is stack = some stack') {offset : Nat}
    {before after : List Instruction} {i : Instruction}
    (hsplit : Code.located offset is = before ++ i :: after) (hjump : i.op.isJump = true) :
    simulate (before ++ [i]) stack = some [] := by
  induction is generalizing offset stack before with
  | nil => simp [Code.located] at hsplit
  | cons command is ih =>
    obtain ⟨op, operands⟩ := command
    obtain ⟨between, hstep, hrest⟩ := Option.bind_eq_some_iff.1 h
    obtain ⟨heffect, hempty⟩ := Opcode.effect_of_step hstep
    rw [Code.located] at hsplit
    cases before with
    | nil =>
      obtain ⟨rfl, -⟩ := List.cons.inj hsplit
      rw [List.nil_append, simulate, List.foldlM_cons, heffect, hempty hjump]
      rfl
    | cons b before =>
      obtain ⟨rfl, htail⟩ := List.cons.inj hsplit
      rw [List.cons_append, simulate, List.foldlM_cons, heffect]
      exact ih hrest htail

/-! ## Symbolic code -/

/-- What a symbolic instruction does to the stack. -/
def Symbolic.effect : Symbolic → List Entry → Option (List Entry)
  | plain op => op.step []
  | number _ | string _ => Opcode.num.step []
  | var _ => Opcode.var.step []
  | elem _ => Opcode.elem.step []
  | array _ => Opcode.array.step []
  | call count _ => Opcode.call.step [count]

/-- What symbolic code does to the stack. -/
def executeSymbolic : List Symbolic → List Entry → Option (List Entry)
  | [], stack => some stack
  | s :: code, stack => (s.effect stack).bind (executeSymbolic code)

theorem executeSymbolic_append (code code' : List Symbolic) (stack : List Entry) :
    executeSymbolic (code ++ code') stack =
      (executeSymbolic code stack).bind (executeSymbolic code') := by
  induction code generalizing stack with
  | nil => rfl
  | cons s code ih =>
    simp only [List.cons_append, executeSymbolic]
    cases s.effect stack with
    | none => rfl
    | some stack' => exact ih stack'

/-- No call has more arguments than an operand can count. -/
def Symbolic.fits : Symbolic → Bool
  | call count _ => count < wordBound
  | _ => true

theorem effect_of_denotes {P : Program} {s : Symbolic} {i : Command} (h : P.Denotes s i)
    (hfits : s.fits = true) (stack : List Entry) :
    i.1.step (i.2.map (· % wordBound)) stack = s.effect stack := by
  cases s with
  | plain op =>
    obtain rfl : i = (op, []) := h
    rfl
  | call count name =>
    obtain ⟨k, f, rfl, -⟩ := h
    simp only [Symbolic.fits, decide_eq_true_eq] at hfits
    simp [Symbolic.effect, Opcode.step, Opcode.effect, Nat.mod_eq_of_lt hfits]
  | number _ | string _ | var _ | elem _ | array _ =>
    obtain ⟨k, rfl, -⟩ := h
    rfl

/-- Instructions do what the symbolic code they stand for does. -/
theorem execute_of_denotes {P : Program} {code : List Symbolic} (h : List.Forall₂ P.Denotes code is)
    (hfits : code.all Symbolic.fits = true) (stack : List Entry) :
    execute is stack = executeSymbolic code stack := by
  induction h generalizing stack with
  | nil => rfl
  | @cons s i code is hs _ ih =>
    rw [List.all_cons, Bool.and_eq_true] at hfits
    have hi := effect_of_denotes hs hfits.1 stack
    simp only [execute, executeSymbolic]
    rw [hi]
    cases s.effect stack with
    | none => rfl
    | some stack' => exact ih hfits.2 stack'

/-! ## Expressions -/

namespace Expr

variable {e : Expr}

/-- The entry that an expression leaves. -/
def entry : Expr → Entry
  | var _ | elem _ _ | setting _ => .reference
  | whole _ => .array
  | paren e => e.entry
  | _ => .value

theorem isScalar_entry : (e : Expr) → e.wellFormed false = true → e.entry.isScalar = true
  | paren e, h => isScalar_entry e h
  | whole _, h => by simp [wellFormed] at h
  | number _, _ | string _, _ | var _, _ | elem _ _, _ | setting _, _ | call _ _, _ | query _, _
  | unary _ _, _ | scaleOf _, _ | modexp _ _ _, _ | divmod _ _ _, _ | preStep _ _, _
  | postStep _ _, _ | trunc _, _ | prefixed _ _, _ | binary _ _ _, _ => rfl

theorem entry_of_isAssignable : (e : Expr) → e.isAssignable = true → e.entry = .reference
  | paren e, h => entry_of_isAssignable e h
  | var _, _ | elem _ _, _ | setting _, _ => rfl
  | number _, h | string _, h | whole _, h | call _ _, h | query _, h | unary _ _, h | scaleOf _, h
  | modexp _ _ _, h | divmod _ _ _, h | preStep _ _, h | postStep _ _, h | trunc _, h
  | prefixed _ _, h | binary _ _ _, h => by simp [isAssignable, isTarget] at h

theorem entry_of_isTarget (h : e.isTarget = true) : e.entry = .reference := by
  cases e <;> simp_all [isTarget, entry]

mutual

/-- **The code of an expression leaves one entry.** -/
theorem execute_postorder {array : Bool} : (e : Expr) → e.wellFormed array = true →
    ∀ stack, executeSymbolic e.postorder stack = some (e.entry :: stack)
  | number text, _, stack => by
    simp only [postorder]
    split
    · rfl
    · split <;> rfl
  | string _, _, _ | var _, _, _ | setting _, _, _ | whole _, _, _ | query _, _, _ => rfl
  | elem _ index, h, stack => by
    simp [postorder, executeSymbolic_append, execute_postorder index h, executeSymbolic,
      Symbolic.effect, Opcode.step, Opcode.effect, takeScalars, isScalar_entry index h, entry]
  | call _ args, h, stack => by
    obtain ⟨xs, hxs, hrun⟩ := execute_postorderOfAll args h stack
    simp [postorder, executeSymbolic_append, hrun, executeSymbolic, Symbolic.effect,
      Opcode.step, Opcode.effect, takeAny, ← hxs, entry]
  | unary f arg, h, stack => by
    simp only [wellFormed] at h
    simp only [postorder, executeSymbolic_append, execute_postorder arg h, Option.bind_some]
    cases f with
    | length | asciify => rfl
    | _ => simp [Unary.opcode, executeSymbolic, Symbolic.effect, Opcode.step, Opcode.effect,
        takeScalars, isScalar_entry arg h, entry]
  | scaleOf arg, h, stack => by
    simp [postorder, executeSymbolic_append, execute_postorder arg h, executeSymbolic,
      Symbolic.effect, Opcode.step, Opcode.effect, takeScalars, isScalar_entry arg h, entry]
  | modexp a b c, h, stack => by
    simp only [wellFormed, Bool.and_eq_true] at h
    obtain ⟨⟨ha, hb⟩, hc⟩ := h
    simp [postorder, executeSymbolic_append, execute_postorder a ha, execute_postorder b hb,
      execute_postorder c hc, executeSymbolic, Symbolic.effect, Opcode.step, Opcode.effect,
      takeScalars, isScalar_entry a ha, isScalar_entry b hb, isScalar_entry c hc, entry]
  | divmod a b _, h, stack => by
    simp only [wellFormed, Bool.and_eq_true] at h
    obtain ⟨ha, hb⟩ := h
    simp [postorder, executeSymbolic_append, execute_postorder a ha, execute_postorder b hb,
      executeSymbolic, Symbolic.effect, Opcode.step, Opcode.effect, takeScalars, takeReference,
      isScalar_entry a ha, isScalar_entry b hb, entry]
  | preStep _ target, h, stack => by
    simp only [wellFormed, Bool.and_eq_true] at h
    simp [postorder, executeSymbolic_append, execute_postorder target h.2, executeSymbolic,
      Symbolic.effect, Opcode.step, Opcode.effect, takeScalars, takeReference,
      entry_of_isTarget h.1, entry]
  | postStep target up, h, stack => by
    simp only [wellFormed, Bool.and_eq_true] at h
    cases up <;> simp [postorder, executeSymbolic_append, execute_postorder target h.2,
      executeSymbolic, Symbolic.effect, Opcode.step, Opcode.effect, takeReference,
      entry_of_isTarget h.1, entry]
  | trunc e, h, stack => by
    simp only [wellFormed, Bool.and_eq_true] at h
    simp [postorder, executeSymbolic_append, execute_postorder e h.2, executeSymbolic,
      Symbolic.effect, Opcode.step, Opcode.effect, takeScalars, isScalar_entry e h.2, entry]
  | paren e, h, stack => execute_postorder e h stack
  | prefixed op e, h, stack => by
    simp only [wellFormed, Bool.and_eq_true] at h
    obtain ⟨⟨hop, -⟩, he⟩ := h
    simp only [postorder, executeSymbolic_append, execute_postorder e he, Option.bind_some]
    cases op with
    | neg | not => simp [Operator.opcode?, executeSymbolic, Symbolic.effect, Opcode.step,
        Opcode.effect, takeScalars, isScalar_entry e he, entry]
    | _ => simp [Operator.isUnary] at hop
  | binary op left right, h, stack => by
    simp only [wellFormed, Bool.and_eq_true, Bool.or_eq_true, Bool.not_eq_true'] at h
    obtain ⟨⟨⟨⟨⟨hop, -⟩, -⟩, hassign⟩, hleft⟩, hright⟩ := h
    simp only [postorder, executeSymbolic_append, execute_postorder left hleft,
      execute_postorder right hright, Option.bind_some]
    cases op with
    | neg | not | paren => simp [Operator.isBinary, Operator.isUnary] at hop
    | assign op =>
      have hentry := entry_of_isAssignable left (hassign.resolve_left (by
        simp [Operator.isAssignment]))
      simp [Operator.opcode?, executeSymbolic, Symbolic.effect, Opcode.step, Opcode.effect,
        takeScalars, takeReference, isScalar_entry right hright, hentry, entry]
    | _ => simp [Operator.opcode?, executeSymbolic, Symbolic.effect, Opcode.step, Opcode.effect,
        takeScalars, isScalar_entry left hleft, isScalar_entry right hright, entry]

/-- The code of some arguments leaves an entry for each of them. -/
theorem execute_postorderOfAll : (es : List Expr) → allWellFormed es = true → ∀ stack,
    ∃ xs : List Entry, xs.length = es.length ∧
      executeSymbolic (postorderOfAll es) stack = some (xs ++ stack)
  | [], _, stack => ⟨[], rfl, rfl⟩
  | e :: es, h, stack => by
    simp only [allWellFormed, Bool.and_eq_true] at h
    obtain ⟨xs, hxs, hrun⟩ := execute_postorderOfAll es h.2 (e.entry :: stack)
    refine ⟨xs ++ [e.entry], by simp [hxs], ?_⟩
    simp [postorderOfAll, executeSymbolic_append, execute_postorder e h.1, hrun]

end

/-- A value that nobody wants is not left. -/
theorem execute_discarded (he : e.wellFormed false = true) {code : List Symbolic}
    (h : e.discarded = some code) (stack : List Entry) : executeSymbolic code stack = some stack := by
  cases e with
  | binary op left right =>
    cases op with
    | assign op =>
      cases h
      simp only [wellFormed, Bool.and_eq_true, Bool.or_eq_true, Bool.not_eq_true'] at he
      obtain ⟨⟨⟨-, hassign⟩, hleft⟩, hright⟩ := he
      have hentry := entry_of_isAssignable left (hassign.resolve_left (by
        simp [Operator.isAssignment]))
      simp [executeSymbolic_append, execute_postorder left hleft, execute_postorder right hright,
        executeSymbolic, Symbolic.effect, Opcode.step, Opcode.effect, takeScalars, takeReference,
        isScalar_entry right hright, hentry]
    | _ => simp [discarded] at h
  | preStep up target | postStep target up =>
    cases h
    simp only [wellFormed, Bool.and_eq_true] at he
    simp [executeSymbolic_append, execute_postorder target he.2, executeSymbolic, Symbolic.effect,
      Opcode.step, Opcode.effect, takeScalars, takeReference, entry_of_isTarget he.1]
  | _ => simp [discarded] at h

/-- What an expression leaves in a context. -/
def left (ctx : Context) (e : Expr) : List Entry :=
  if ctx.needsValue then [e.entry] else []

/-- **An expression leaves its value if it is wanted, and else nothing.** -/
theorem execute_settled {ctx : Context} (he : e.wellFormed ctx.wholeArray = true)
    (hkept : ctx.needsValue = true → ctx.printed = false)
    (hdropped : ctx.needsValue = false → ctx.wholeArray = false) (stack : List Entry) :
    executeSymbolic (e.settled ctx) stack = some (e.left ctx ++ stack) := by
  cases hneeds : ctx.needsValue with
  | true => simp [settled, left, hneeds, hkept hneeds, execute_postorder e he]
  | false =>
    rw [hdropped hneeds] at he
    simp only [settled, left, hneeds, Bool.false_eq_true, if_false, List.nil_append]
    split
    · next hcode =>
      split at hcode
      · cases hcode
      · exact execute_discarded he hcode stack
    · cases ctx.printed <;> simp [executeSymbolic_append, execute_postorder e he, executeSymbolic,
        Symbolic.effect, Opcode.step, Opcode.effect, takeScalars, isScalar_entry e he]

/-! ## The number of arguments -/

theorem length_le_wordsOfAll (es : List Expr) : es.length ≤ (wordsOfAll es).length := by
  induction es with
  | nil => simp
  | cons e es ih =>
    have hpos := List.length_pos_iff.2 e.words_ne_nil
    cases es with
    | nil =>
      simp only [wordsOfAll, List.length_singleton]
      omega
    | cons e' es =>
      simp only [wordsOfAll, List.length_append, List.length_cons] at ih ⊢
      omega

mutual

/-- A call in an expression has fewer arguments than the expression has words. -/
theorem fits_postorder : (e : Expr) → e.words.length ≤ wordBound →
    e.postorder.all Symbolic.fits = true
  | number text, _ => by
    simp only [postorder]
    split
    · rfl
    · split <;> rfl
  | string _, _ | var _, _ | setting _, _ | whole _, _ | query _, _ => rfl
  | elem _ e, h | unary _ e, h | scaleOf e, h | preStep _ e, h | postStep e _, h | trunc e, h
  | paren e, h => by
    simp only [words, List.length_append, List.length_cons] at h
    simp [postorder, fits_postorder e (by omega), Symbolic.fits]
  | prefixed op e, h => by
    simp only [words, List.length_cons] at h
    cases ho : op.opcode? <;> simp [postorder, fits_postorder e (by omega), Symbolic.fits, ho]
  | binary op left right, h => by
    simp only [words, List.length_append, List.length_cons] at h
    cases ho : op.opcode? <;> simp [postorder, fits_postorder left (by omega),
      fits_postorder right (by omega), Symbolic.fits, ho]
  | modexp a b c, h => by
    simp only [words, List.length_append, List.length_cons] at h
    simp [postorder, fits_postorder a (by omega), fits_postorder b (by omega),
      fits_postorder c (by omega), Symbolic.fits]
  | divmod a b _, h => by
    simp only [words, List.length_append, List.length_cons] at h
    simp [postorder, fits_postorder a (by omega), fits_postorder b (by omega), Symbolic.fits]
  | call _ args, h => by
    have := length_le_wordsOfAll args
    simp only [words, List.length_append, List.length_cons] at h
    have hcount : args.length < wordBound := by omega
    simp [postorder, fits_postorderOfAll args (by omega), Symbolic.fits, hcount]

theorem fits_postorderOfAll : (es : List Expr) → (wordsOfAll es).length ≤ wordBound →
    (postorderOfAll es).all Symbolic.fits = true
  | [], _ => rfl
  | [e], h => by simp [postorderOfAll, fits_postorder e h]
  | e :: e' :: es, h => by
    simp only [wordsOfAll, List.length_append, List.length_cons] at h
    rw [postorderOfAll, List.all_append, fits_postorder e (by omega),
      fits_postorderOfAll (e' :: es) (by omega)]
    rfl

end

theorem fits_settled (h : e.words.length ≤ wordBound) (ctx : Context) :
    (e.settled ctx).all Symbolic.fits = true := by
  have hcode := fits_postorder e h
  have hdiscarded : ∀ code, e.discarded = some code → code.all Symbolic.fits = true := by
    intro code hcode
    cases e with
    | binary op left right =>
      simp only [words, List.length_append, List.length_cons] at h
      cases op with
      | assign op =>
        cases hcode
        simp [fits_postorder left (by omega), fits_postorder right (by omega), Symbolic.fits]
      | _ => simp [discarded] at hcode
    | preStep up target | postStep target up =>
      cases hcode
      simp only [words, List.length_append, List.length_cons] at h
      simp [fits_postorder target (by omega), Symbolic.fits]
    | _ => simp [discarded] at hcode
  unfold settled
  split
  · split <;> simp [hcode, Symbolic.fits]
  · split
    · next hsome =>
      split at hsome
      · cases hsome
      · exact hdiscarded _ hsome
    · simp [hcode, Symbolic.fits]

end Expr

end DeskCalc
