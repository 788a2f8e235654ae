import DeskCalc.Proofs.Expression.Sound
import DeskCalc.Proofs.Tokens

/-!
# Values that nobody wants

The tokens of an expression are compiled in the same way whether its value is kept, printed or
dropped (`evaluate_eq`): the context decides only about the end of the code. A value that nobody
wants is either taken off the stack by one more instruction, or it is not made at all, where the
operation at the root of the expression has a form without value (`Expr.Discards`). On a machine
in which these forms mean what they should, both come to the same (`Expr.Discards.run_eq`).
-/

namespace DeskCalc

/-! ## Code with and without the value -/

/-- A machine for instructions, in which an assignment without value is the assignment and a `pop`,
and a step that is dropped is the assignment of a sum. -/
structure Machine (σ : Type) where
  step : Command → σ → Option σ
  store_eq (op : Option Arith) (s : σ) :
    step (.store op, []) s = (step (.assign op, []) s).bind (step (.pop, []))
  inc_pop (s : σ) : (step (.inc, []) s).bind (step (.pop, [])) =
    (step (.one, []) s).bind (step (.store (some .plus), []))
  dec_pop (s : σ) : (step (.dec, []) s).bind (step (.pop, [])) =
    (step (.one, []) s).bind (step (.store (some .minus), []))

namespace Machine

variable {σ : Type} (M : Machine σ)

/-- One instruction after the other. -/
def run (is : List Command) (s : σ) : Option σ := is.foldlM (fun s i => M.step i s) s

theorem run_append (is js : List Command) (s : σ) :
    M.run (is ++ js) s = (M.run is s).bind (M.run js) :=
  List.foldlM_append

/-- What comes first does not matter. -/
theorem run_append_congr {is js : List Command} (h : ∀ s, M.run is s = M.run js s)
    (C : List Command) (s : σ) : M.run (C ++ is) s = M.run (C ++ js) s := by
  rw [run_append, run_append, funext h]

theorem run_one (i : Command) (s : σ) : M.run [i] s = M.step i s := by
  simp [run]

theorem run_two (i j : Command) (s : σ) : M.run [i, j] s = (M.step i s).bind (M.step j) := by
  rw [← List.singleton_append, run_append, run_one, funext (M.run_one j)]

end Machine

/-- The numbers of variables and of elements, and a stack of numbers and of places to assign to. -/
structure Abacus where
  stack : List (Int ⊕ Nat × Option Int)
  memory : Nat × Option Int → Int

namespace Abacus

def push (s : Abacus) (n : Int) : Abacus := { s with stack := .inl n :: s.stack }

/-- The number of an entry of the stack. -/
def load (s : Abacus) : Int ⊕ Nat × Option Int → Int
  | .inl n => n
  | .inr place => s.memory place

/-- Sums and differences are all that is reckoned. -/
def reckon : Arith → Int → Int → Option Int
  | .plus, a, b => some (a + b)
  | .minus, a, b => some (a - b)
  | _, _, _ => none

/-- An assignment; the number, and what is left without it. -/
def assign (s : Abacus) (op : Option Arith) : Option (Int × Abacus) :=
  match s.stack with
  | value :: .inr place :: stack =>
    let n := s.load value
    (op.elim (some n) (reckon · (s.memory place) n)).map fun n =>
      (n, ⟨stack, Function.update s.memory place n⟩)
  | _ => none

/-- A step behind its place leaves the number from before. -/
def bump (s : Abacus) (op : Arith) : Option Abacus :=
  ((s.push 1).assign (some op)).map fun r => r.2.push ((s.stack.head?.map s.load).getD 0)

/-- The instructions of assignments. -/
def step : Command → Abacus → Option Abacus
  | (.one, _), s => some (s.push 1)
  | (.var, [i]), s => some { s with stack := .inr (i, none) :: s.stack }
  | (.elem, [i]), ⟨n :: stack, m⟩ => some ⟨.inr (i, some (load ⟨stack, m⟩ n)) :: stack, m⟩
  | (.assign op, _), s => (s.assign op).map fun r => r.2.push r.1
  | (.store op, _), s => (s.assign op).map (·.2)
  | (.inc, _), s => s.bump .plus
  | (.dec, _), s => s.bump .minus
  | (.pop, _), ⟨_ :: stack, m⟩ => some ⟨stack, m⟩
  | _, _ => none

theorem bump_pop (s : Abacus) (op : Arith) :
    (s.bump op).bind (step (.pop, [])) = step (.store (some op), []) (s.push 1) := by
  simp only [bump, step]
  cases (s.push 1).assign (some op) <;> rfl

/-- **A machine that reckons.** -/
def machine : Machine Abacus where
  step := step
  store_eq op s := by
    simp only [step]
    cases s.assign op <;> rfl
  inc_pop s := s.bump_pop .plus
  dec_pop s := s.bump_pop .minus

-- `a[i++] -= (b = x--)` where `i` is 2, `x` is 7 and `a[2]` is 20
example : (machine.run [(.var, [0]), (.inc, []), (.elem, [0]), (.var, [1]), (.var, [2]), (.dec, []),
    (.assign none, []), (.store (some .minus), [])]
    ⟨[], fun p => if p = (0, none) then 2 else if p = (2, none) then 7 else 20⟩).map (fun s =>
      (s.stack.length, [(0, none), (1, none), (2, none), (0, some 2)].map s.memory)) =
    some (0, [3, 7, 6, 13]) := by
  decide

end Abacus

/-- **Code without the value does what evaluating and dropping does.** -/
theorem Expr.Discards.run_eq {e : Expr} {C D : List Command} (h : e.Discards .pop C D) {σ : Type}
    (M : Machine σ) (s : σ) : M.run D s = M.run (C ++ [(.pop, [])]) s := by
  cases h with
  | assign | preStep =>
    rw [List.append_assoc]
    refine M.run_append_congr (fun s => ?_) _ s
    rw [List.singleton_append, M.run_one, M.run_two, M.store_eq]
  | @postStep up =>
    rw [List.append_assoc]
    refine M.run_append_congr (fun s => ?_) _ s
    rw [List.singleton_append, M.run_two, M.run_two]
    cases up with
    | true => exact (M.inc_pop s).symm
    | false => exact (M.dec_pop s).symm
  | value => rfl

/-! ## The end of the code -/

/-- What the tokens of an expression depend on in its context. -/
def Context.core (ctx : Context) : Context where
  answer := ctx.answer
  wholeArray := ctx.wholeArray

/-- The function that receives code gets the code `c`. -/
def Pass.recode (p : Pass) (c : Code) : Pass :=
  { p with program := p.program.modifyFunction (fun f => { f with code := c }) p.target }

namespace Compile

variable {p₀ p q : Pass} {f : Function} {c : Code} {u : List Token} {C D : List Command} {e : Expr}
  {t : Tally} {ctx : Context} {ends : Ends} {sub : Sub}

theorem emitWith_recode (hf : p.program.function? p.target = some f) (op : Opcode)
    (operands : List Nat) : emitWith op operands p =
      .ok () (p.recode (f.code.write op operands p.token.span.line)) := by
  have hcongr : p.program.modifyFunction
      (fun f => { f with code := f.code.write op operands p.token.span.line }) p.target =
        p.program.modifyFunction
          (fun g => { g with code := f.code.write op operands p.token.span.line }) p.target :=
    Program.modifyFunction_congr hf rfl
  have hhas : p.program.hasFunction p.target = true := by
    rw [Program.hasFunction_eq, hf]
    rfl
  have hhere : here p = .ok p.token.span p := rfl
  have hget : (get : Compile Pass) p = .ok p p := rfl
  rw [emitWith, bind_of_ok hhere, modifyFunction, bind_of_ok hget, if_pos hhas, hcongr]
  rfl

theorem suppressValue_recode (hf : p.program.function? p.target = some f) (t : Tally) :
    suppressValue t p =
      match f.code.discardValue? t p.token.span.line with
      | some d => .ok true (p.recode d)
      | none => .ok false p := by
  have hfunction : function p = .ok f p := by
    have hget : (get : Compile Pass) p = .ok p p := rfl
    rw [function, bind_of_ok hget, hf]
    rfl
  have hhere : here p = .ok p.token.span p := rfl
  rw [suppressValue, bind_of_ok hfunction, bind_of_ok hhere]
  cases f.code.discardValue? t p.token.span.line with
  | none => rfl
  | some d =>
    have hcongr : p.program.modifyFunction (fun _ => { f with code := d }) p.target =
        p.program.modifyFunction (fun f => { f with code := d }) p.target :=
      Program.modifyFunction_congr hf rfl
    have hput : putFunction { f with code := d } p = .ok () (p.recode d) := by
      rw [Pass.recode, ← hcongr]
      rfl
    dsimp only
    rw [bind_of_ok hput]
    rfl

/-- What is written in place of the code so far. -/
theorem progress_recode (h : p₀.Progress u C p) (hf : p₀.program.function? p₀.target = some f)
    (hD : f.code.Writes D c) : p₀.Progress u D (p.recode c) := by
  obtain ⟨g, d, hg, -, hp⟩ := h.program.written
  cases hf.symm.trans hg
  have hprogram := h.program.rewrite hf hD hp
  have hcongr : p.program.modifyFunction (fun _ => { f with code := c }) p.target =
      p.program.modifyFunction (fun f => { f with code := c }) p.target :=
    Program.modifyFunction_congr (f := { f with code := d }) (h.target ▸ hp) rfl
  refine { h with program := ?_ }
  rw [Pass.recode, ← hcongr, h.target]
  exact hprogram

/-- **What becomes of the value** at the end of an expression, where it is not wanted. -/
theorem settleValue_discards (ctx : Context) (h : p₀.Progress u C p)
    (hd : List.Forall₂ p.program.Denotes e.postorder C) (hassigned : t.assigned = e.isAssignment)
    (hstepped : t.stepped = e.isStep) (hneeds : ctx.needsValue = false) :
    ∃ D c, settleValue ctx e.startsWithParen t p = .ok () (p.recode c) ∧
      p₀.Progress u D (p.recode c) ∧ e.Discards (if ctx.printed then .print else .pop) C D := by
  obtain ⟨f, c, hf, hC, hp⟩ := h.program.written
  have hfun : p.program.function? p.target = some { f with code := c } := h.target ▸ hp
  have hlast (op : Opcode) (hop : op.operandCount = 0) (line : Nat) :
      f.code.Writes (C ++ [(op, [])]) (c.write op [] line) := by
    have hlength : ([] : List Nat).length = op.operandCount := hop.symm
    exact .snoc hC hlength line
  -- with nothing to exchange the value is disposed of
  have hemit (hroot : e.startsWithParen = true ∨ e.isAssignment = false ∧ e.isStep = false)
      (hsettle : settleValue ctx e.startsWithParen t p =
        emit (if ctx.printed then .print else .pop) p) :
      ∃ D c, settleValue ctx e.startsWithParen t p = .ok () (p.recode c) ∧
        p₀.Progress u D (p.recode c) ∧ e.Discards (if ctx.printed then .print else .pop) C D := by
    refine ⟨_, _, hsettle.trans (emitWith_recode hfun _ _), ?_, .value hroot⟩
    exact progress_recode h hf (hlast _ (by cases ctx.printed <;> rfl) _)
  by_cases hparen : e.startsWithParen = true
  · refine hemit (.inl hparen) ?_
    rw [settleValue, hneeds, hparen]
    cases ctx.printed <;> rfl
  · rw [Bool.not_eq_true] at hparen
    have hsuppress := suppressValue_recode hfun t
    have hcode := Code.discardValue?_eq hC hd hassigned hstepped p.token.span.line
    cases he : e.discarded with
    | none =>
      rw [he] at hcode
      rw [hcode] at hsuppress
      obtain ⟨ha, hs⟩ := Expr.root_of_discarded he
      refine hemit (.inr ⟨ha, hs⟩) ?_
      rw [settleValue, hneeds, hparen, if_neg (by decide), bind_of_ok hsuppress, hassigned, ha]
      cases ctx.printed <;> rfl
    | some code =>
      rw [he] at hcode
      obtain ⟨d, D, hsome, hD, -, hdiscards⟩ := hcode
      rw [hsome] at hsuppress
      refine ⟨D, d, ?_, progress_recode h hf hD, hdiscards _ hparen⟩
      rw [settleValue, hneeds, hparen, if_neg (by decide), bind_of_ok hsuppress]
      cases ctx.printed <;> rfl

/-! ## Line feeds behind the expression -/

/-- A loop does the same on a changed pass if every repetition does. -/
theorem iterate_commutes {α β γ : Type} (φ : Pass → Pass) {step : α → Compile (α ⊕ β)}
    (hstep : ∀ a p r q, step a p = .ok r q → step a (φ p) = .ok r (φ q)) (bound : List γ) {a : α}
    {b : β} (h : iterate step bound a p = .ok b q) :
    iterate step bound a (φ p) = .ok b (φ q) := by
  induction bound generalizing a p with
  | nil =>
    rw [iterate] at h ⊢
    obtain ⟨r, p', hr, h⟩ := bind_eq_ok h
    rw [bind_of_ok (hstep a p r p' hr)]
    cases r with
    | inl a' => cases h
    | inr b' =>
      cases h
      rfl
  | cons _ bound ih =>
    rw [iterate] at h ⊢
    obtain ⟨r, p', hr, h⟩ := bind_eq_ok h
    rw [bind_of_ok (hstep a p r p' hr)]
    cases r with
    | inl a' => exact ih h
    | inr b' =>
      cases h
      rfl

theorem advance_recode (h : advance p = .ok () q) (c : Code) :
    advance (p.recode c) = .ok () (q.recode c) := by
  rcases p with ⟨s, token, previous, _ | ⟨⟨tok, ws, error⟩, rest⟩, quitting⟩
  · cases h
    rfl
  · cases error with
    | none =>
      cases h
      rfl
    | some n => cases h

/-- Line feeds are skipped whatever code has been written. -/
theorem skipNewlines_recode (h : skipNewlines p = .ok () q) (c : Code) :
    skipNewlines (p.recode c) = .ok () (q.recode c) := by
  refine iterate_commutes (·.recode c) (fun _ p r q hr => ?_) p.upcoming h
  obtain ⟨k, p', hk, hr⟩ := bind_eq_ok hr
  cases hk
  have hkind : kind (p.recode c) = .ok p.token.kind (p.recode c) := rfl
  rw [skipStep, bind_of_ok hkind]
  by_cases hnewline : (p.token.kind == .newline) = true
  · rw [if_pos hnewline] at hr ⊢
    obtain ⟨_, p', hadvance, hr⟩ := bind_eq_ok hr
    cases hr
    rw [bind_of_ok (advance_recode hadvance c)]
    rfl
  · rw [if_neg hnewline] at hr ⊢
    cases hr
    rfl

/-! ## Tokens in every context -/

theorem turn_core (base : Nat) (ctx : Context) : turn sub base ctx t = turn sub base ctx.core t :=
  rfl

/-- The tokens of an expression are compiled in the same way wherever the value goes. -/
theorem turns_core (base : Nat) (ctx : Context) :
    turns sub base ctx = turns sub base ctx.core := by
  unfold turns perToken
  refine congrArg (get >>= ·) (funext fun p => ?_)
  generalize p.upcoming = bound
  generalize ({} : Tally) = t
  induction bound generalizing ctx t with
  | nil =>
    simp only [iterate, turnStep, turn_core _ ctx, bind_assoc]
    refine congrArg _ (funext fun r => ?_)
    cases r <;> rfl
  | cons _ bound ih =>
    simp only [iterate, turnStep, turn_core _ ctx, bind_assoc]
    refine congrArg _ (funext fun r => ?_)
    cases r with
    | more t' =>
      simp only [pure_bind]
      rw [ih { ctx with wholeArray := false }, ih { ctx.core with wholeArray := false }]
      rfl
    | stop t' => rfl
    | empty => rfl

/-- An expression whose tokens have been compiled, up to its value. -/
def complete (base : Nat) (ctx : Context) (ends : Ends) (t : Tally) : Compile Tally := do
  let t ← drain base t
  if t.values = 1 then
    if (ends.contains (← kind)) || (← atDelimiter) then
      reportRelations ctx t
      return t
    else refuseHere .invalidExpression
  else refuseHere .invalidExpression

/-- The tokens of an expression up to its value; `none` if it is `()`. -/
def evaluateFrom (sub : Sub) (ctx : Context) (ends : Ends) (base : Nat) (parenFirst : Bool) :
    Compile (Option (Bool × Tally)) := do
  match ← turns sub base ctx with
  | some t => return some (parenFirst, ← complete base ctx ends t)
  | none => return none

/-- An expression up to its value. The answer says whether it started with a parenthesis. -/
def evaluate (sub : Sub) (ctx : Context) (ends : Ends) : Compile (Option (Bool × Tally)) := do
  let base := (← get).operators.length
  if ctx.answer then pure () else skipNewlines
  evaluateFrom sub ctx ends base (← isAt (.symbol .leftParen))

/-- The line feeds behind an expression, unless it ends there. -/
def skipBehind (ends : Ends) : Compile Unit :=
  if ends.contains .newline then pure () else skipNewlines

/-- What is done with the value. -/
def settle (ctx : Context) (ends : Ends) : Option (Bool × Tally) → Compile Outcome
  | some (parenFirst, t) => do
    settleValue ctx parenFirst t
    skipBehind ends
    return .value
  | none => return .empty

theorem endExpression_eq (base : Nat) (parenFirst : Bool) :
    (do
      endExpression base ctx ends parenFirst t
      return Outcome.value) =
      complete base ctx ends t >>= fun t => settle ctx ends (some (parenFirst, t)) := by
  rw [endExpression, complete, bind_assoc, bind_assoc]
  refine congrArg _ (funext fun t => ?_)
  by_cases hvalues : t.values = 1
  · rw [if_pos hvalues, if_pos hvalues, bind_assoc, bind_assoc]
    refine congrArg _ (funext fun k => ?_)
    rw [bind_assoc, bind_assoc]
    refine congrArg _ (funext fun d => ?_)
    by_cases hends : (ends.contains k || d) = true
    · rw [if_pos hends, if_pos hends, bind_assoc, bind_assoc]
      simp only [settle, skipBehind, bind_assoc, pure_bind]
    · rw [if_neg hends, if_neg hends]
      rfl
  · rw [if_neg hvalues, if_neg hvalues]
    rfl

theorem evaluateFrom_eq (base : Nat) (parenFirst : Bool) :
    (do
      match ← turns sub base ctx with
      | some t =>
        endExpression base ctx ends parenFirst t
        return Outcome.value
      | none => return .empty) =
      evaluateFrom sub ctx ends base parenFirst >>= settle ctx ends := by
  rw [evaluateFrom, bind_assoc]
  refine congrArg _ (funext fun r => ?_)
  cases r with
  | none => rfl
  | some t =>
    refine (endExpression_eq base parenFirst).trans ?_
    simp only [bind_assoc, pure_bind]

/-- An expression is evaluated, and then the context has its say. -/
theorem expressionWith_eq :
    expressionWith sub ctx ends = evaluate sub ctx ends >>= settle ctx ends := by
  rw [expressionWith, evaluate, bind_assoc]
  refine congrArg _ (funext fun p => ?_)
  dsimp only
  split
  · rw [bind_assoc]
    exact congrArg _ (funext fun b => evaluateFrom_eq _ b)
  · rw [bind_assoc]
    refine congrArg _ (funext fun _ => ?_)
    rw [bind_assoc]
    exact congrArg _ (funext fun b => evaluateFrom_eq _ b)

/-- **The context does not change how an expression is evaluated.** -/
theorem evaluate_eq (needsValue printed : Bool) :
    evaluate sub { ctx with needsValue := needsValue, printed := printed } ends =
      evaluate sub ctx ends := by
  have hturns (base : Nat) :
      turns sub base { ctx with needsValue := needsValue, printed := printed } =
        turns sub base ctx := by
    rw [turns_core, turns_core base ctx]
    rfl
  simp only [evaluate, evaluateFrom, hturns]
  rfl

/-! ## Every expression -/

/-- From `p` to `q` the expression `e` was compiled, and `b` and `t` are what is known of it. -/
structure Evaluated (p : Pass) (array : Bool) (ends : Ends) (e : Expr) (u : List Token) (b : Bool)
    (t : Tally) (q : Pass) : Prop where
  wellFormed : e.wellFormed array = true
  words : wordsOf u = e.words
  compiles : p.Compiles u e.postorder q
  paren : b = e.startsWithParen
  assigned : t.assigned = e.isAssignment
  stepped : t.stepped = e.isStep
  /-- The token behind the expression may end it. -/
  ended : (ends.contains q.token.kind || isDelimited q) = true

theorem complete_sound {array : Bool} {fs : List Frame} {x : Option Expr} (hp₀ : p₀.InOrder)
    (h : Partway p₀ array fs x t p) (hk : x ≠ none → p₀.token.kind ≠ .newline) :
    Accepts (complete p₀.operators.length ctx ends t) p fun t' q => ∃ e u,
      Evaluated p₀ array ends e u (p₀.token.kind == .symbol .leftParen) t' q := by
  rw [complete]
  refine (drain_sound hp₀ h).bind ?_ fun _ _ _ => trivial
  rintro t' q ⟨-, hone⟩
  rw [ensures_ite]
  split
  · next hvalues =>
    obtain ⟨hx, e, u, he, hwords, hu, hassigned, hstepped, -⟩ := hone hvalues
    simp only [ensures_bind, ensures_kind, ensures_atDelimiter, ensures_ite, ensures_pure]
    split
    · next hends =>
      refine reportRelations_step hp₀ hu (fun r hr hrest _ => ?_) fun _ _ => trivial
      refine ⟨e, u, he, hwords, hr, (startsWithParen_eq hu.rest_eq hwords (hk hx)).symm, hassigned,
        hstepped, ?_⟩
      obtain ⟨⟨is, his, -⟩, -⟩ := hu
      obtain ⟨⟨js, hjs, -⟩, -⟩ := hr
      have htoken : r.token = q.token := (List.cons.inj hrest).1
      have hprevious : r.previous = q.previous := hjs.previous.trans his.previous.symm
      have hblocks : r.blocks = q.blocks := hjs.blocks.trans his.blocks.symm
      rw [isDelimited, htoken, hprevious, hblocks]
      exact hends
    · trivial
  · trivial

variable {n : Nat}

theorem evaluateFrom_sound (hsub : SoundSub n sub) (hp : p.InOrder) (hn : p.upcoming.length ≤ n) :
    Accepts (evaluateFrom sub ctx ends p.operators.length (p.token.kind == .symbol .leftParen)) p
      fun r q => ∀ b t, r = some (b, t) → ∃ e u, Evaluated p ctx.wholeArray ends e u b t q := by
  rw [evaluateFrom]
  have hcomplete {fs : List Frame} {x : Option Expr} {t : Tally} {q : Pass}
      (h : Partway p ctx.wholeArray fs x t q) (hk : x ≠ none → p.token.kind ≠ .newline) :
      Accepts (do return some (p.token.kind == .symbol .leftParen,
          ← complete p.operators.length ctx ends t)) q
        fun r q => ∀ b t, r = some (b, t) → ∃ e u, Evaluated p ctx.wholeArray ends e u b t q := by
    refine (complete_sound hp h hk).bind ?_ fun _ _ => id
    rintro t' r hr b t ⟨⟩
    exact hr
  by_cases hk : p.token.kind = .newline
  · refine (turns_newline (Q := fun r q => r = some {} ∧ q = p) hk ⟨rfl, rfl⟩).bind ?_ fun _ _ => id
    rintro r q ⟨rfl, rfl⟩
    exact hcomplete (.start hp ctx.wholeArray) (by simp)
  · refine (turns_sound hsub hp hn).bind ?_ fun _ _ _ => trivial
    rintro (_ | t) q hq
    · rintro b t ⟨⟩
    · obtain ⟨fs, x, h⟩ := hq
      exact hcomplete h fun _ => hk

/-- An expression that is evaluated is one of the grammar, whatever the context. -/
theorem evaluate_sound (hsub : SoundSub n sub) (hp : p.InOrder) (hn : p.upcoming.length ≤ n) :
    Accepts (evaluate sub ctx ends) p fun r q => ∀ b t, r = some (b, t) →
      ∃ e u, Evaluated p ctx.wholeArray ends e u b t q := by
  simp only [evaluate, ensures_bind, ensures_get, ensures_ite, ensures_isAt]
  split
  · exact evaluateFrom_sound hsub hp hn
  · refine (skipNewlines_sound (Q := fun _ q => ∃ v, wordsOf v = [] ∧ p.Compiles v [] q) hp
      (.refl hp) fun v q hv hq _ => ⟨v, hv, hq⟩).mono ?_ fun _ _ _ => trivial
    rintro - q ⟨v, hv, hq⟩
    have hlength := hq.length_eq
    rw [← hq.operators]
    refine (evaluateFrom_sound hsub (hq.inOrder hp) (by omega)).imp ?_
    intro r s hs b t hr
    obtain ⟨e, u, he⟩ := hs b t hr
    exact ⟨e, v ++ u, { he with
      words := by simp [hv, he.words]
      compiles := by simpa using hq.trans he.compiles }⟩

theorem skipBehind_recode (h : skipBehind ends p = .ok () q) (c : Code) :
    skipBehind ends (p.recode c) = .ok () (q.recode c) := by
  unfold skipBehind at h ⊢
  by_cases hends : ends.contains .newline = true
  · rw [if_pos hends] at h ⊢
    cases h
    rfl
  · rw [if_neg hends] at h ⊢
    exact skipNewlines_recode h c

theorem skipBehind_sound (hp : p.InOrder) (h : skipBehind ends p = .ok () q) :
    ∃ v, wordsOf v = [] ∧ p.Compiles v [] q := by
  unfold skipBehind at h
  by_cases hends : ends.contains .newline = true
  · rw [if_pos hends] at h
    cases h
    exact ⟨[], rfl, .refl hp⟩
  · rw [if_neg hends] at h
    exact (skipNewlines_sound (Q := fun _ q => ∃ v, wordsOf v = [] ∧ p.Compiles v [] q) hp
      (.refl hp) fun v q hv hq _ => ⟨v, hv, hq⟩).ok h

/-- A value that is kept is left alone. -/
theorem settle_keeping {b : Bool} {r : Outcome}
    (h : settle { ctx with needsValue := true, printed := false } ends (some (b, t)) p = .ok r q) :
    r = .value ∧ skipBehind ends p = .ok () q := by
  rw [settle] at h
  have hkeep : settleValue { ctx with needsValue := true, printed := false } b t p = .ok () p := rfl
  rw [bind_of_ok hkeep] at h
  obtain ⟨_, q', hskip, h⟩ := bind_eq_ok h
  cases h
  exact ⟨rfl, hskip⟩

/-- What is done with a value that is not wanted. -/
theorem settle_discards {array b : Bool} (ctx : Context) (hp₀ : p₀.InOrder)
    (he : Evaluated p₀ array ends e u b t p) (hskip : skipBehind ends p = .ok () q) :
    ∃ v C, wordsOf v = e.words ∧ p₀.Progress v C q ∧
      List.Forall₂ q.program.Denotes e.postorder C ∧ ∀ printed, ∃ D c,
        settle { ctx with needsValue := false, printed := printed } ends (some (b, t)) p =
          .ok .value (q.recode c) ∧
        p₀.Progress v D (q.recode c) ∧ e.Discards (if printed then .print else .pop) C D := by
  obtain ⟨⟨C, hC, hd⟩, -⟩ := he.compiles
  obtain ⟨w, hw, hq⟩ := skipBehind_sound (hC.inOrder hp₀) hskip
  obtain ⟨⟨is, hq, his⟩, -⟩ := hq
  cases his
  refine ⟨u ++ w, C, by simp [he.words, hw], by simpa using hC.trans hq,
    hd.imp fun _ _ => Program.Denotes.mono hq.program.grows, fun printed => ?_⟩
  obtain ⟨D, c, hsettle, hD, hdiscards⟩ := settleValue_discards
    { ctx with needsValue := false, printed := printed } hC hd he.assigned he.stepped rfl
  have hskip' := skipBehind_recode hskip c
  obtain ⟨w', -, hw'⟩ := skipBehind_sound (hD.inOrder hp₀) hskip'
  obtain ⟨⟨js, hw', hjs⟩, -⟩ := hw'
  cases hjs
  have hsame : w' = w := List.append_cancel_right (hw'.rest.symm.trans hq.rest)
  subst hsame
  refine ⟨D, c, ?_, by simpa using hD.trans hw', hdiscards⟩
  rw [settle, he.paren, bind_of_ok hsettle, bind_of_ok hskip']
  rfl

/-- What an expression is compiled with. -/
theorem exists_expression_eq (p : Pass) : ∃ sub, SoundSub p.upcoming.length sub ∧
    ∀ ctx ends, expression ctx ends p = (expressionWith sub ctx ends >>= requireValue) p := by
  cases hup : p.upcoming with
  | nil =>
    refine ⟨fun _ _ => throw (.fault .unbounded), ?_, fun ctx ends => ?_⟩
    · intro _ _ q _ _ _ _ hlt
      exact absurd hlt (Nat.not_lt_zero _)
    · have hget : (get : Compile Pass) p = .ok p p := rfl
      rw [expression, expressionOrEmpty, bind_assoc, bind_of_ok hget, hup, expressionAt]
  | cons r bound =>
    refine ⟨fun ctx ends => do requireValue (← expressionAt bound ctx ends),
      soundSub_of_expressionAt bound fun hq hle => expressionAt_sound bound hq hle,
      fun ctx ends => ?_⟩
    have hget : (get : Compile Pass) p = .ok p p := rfl
    rw [expression, expressionOrEmpty, bind_assoc, bind_of_ok hget, hup, expressionAt]

/-- Where the value is kept, the expression is evaluated and nothing more is done. -/
theorem expression_keeping (ctx : Context) (hp : p.InOrder)
    (h : expression { ctx with needsValue := true, printed := false } ends p = .ok () q) :
    ∃ sub e u b t r, evaluate sub ctx ends p = .ok (some (b, t)) r ∧
      Evaluated p ctx.wholeArray ends e u b t r ∧ skipBehind ends r = .ok () q ∧
      ∀ ctx ends, expression ctx ends p = (expressionWith sub ctx ends >>= requireValue) p := by
  obtain ⟨sub, hsub, hexpression⟩ := exists_expression_eq p
  rw [hexpression, expressionWith_eq, bind_assoc, evaluate_eq] at h
  obtain ⟨value, r, hr, h⟩ := bind_eq_ok h
  obtain ⟨outcome, q', houtcome, h⟩ := bind_eq_ok h
  cases value with
  | none =>
    cases houtcome
    cases h
  | some value =>
    obtain ⟨b, t⟩ := value
    obtain ⟨rfl, hskip⟩ := settle_keeping houtcome
    cases h
    obtain ⟨e, u, he⟩ := (evaluate_sound hsub hp (Nat.le_refl _)).ok hr b t rfl
    exact ⟨sub, e, u, b, t, r, hr, he, hskip, hexpression⟩

/-- **A value that is not wanted costs the operation at the root.** An expression whose value is
kept with the code `C` is compiled wherever the value is printed or dropped, up to the same pass
but for the code. -/
theorem expression_discards (ctx : Context) (hp : p.InOrder)
    (h : expression { ctx with needsValue := true, printed := false } ends p = .ok () q) :
    ∃ (e : Expr) (u : List Token) (C : List Command), e.wellFormed ctx.wholeArray = true ∧
      wordsOf u = e.words ∧ p.Progress u C q ∧ List.Forall₂ q.program.Denotes e.postorder C ∧
      ∀ printed, ∃ D c,
        expression { ctx with needsValue := false, printed := printed } ends p =
          .ok () (q.recode c) ∧
        p.Progress u D (q.recode c) ∧ e.Discards (if printed then .print else .pop) C D ∧
        (printed = false →
          ∀ (σ : Type) (M : Machine σ) (s : σ), M.run D s = M.run (C ++ [(.pop, [])]) s) := by
  obtain ⟨sub, e, u, b, t, r, hr, he, hskip, hexpression⟩ := expression_keeping ctx hp h
  obtain ⟨v, C, hwords, hC, hd, hsettle⟩ := settle_discards ctx hp he hskip
  refine ⟨e, v, C, he.wellFormed, hwords, hC, hd, fun printed => ?_⟩
  obtain ⟨D, c, hD, hprogress, hdiscards⟩ := hsettle printed
  refine ⟨D, c, ?_, hprogress, hdiscards, ?_⟩
  · rw [hexpression, expressionWith_eq, bind_assoc, evaluate_eq, bind_of_ok hr, bind_of_ok hD]
    rfl
  · rintro rfl σ M s
    exact hdiscards.run_eq M s

/-- An assignment with a step and another assignment inside. -/
def nestedAssignment : Pass := Pass.start (Session.new {}) "a[i++] -= (b = x--)\n"

theorem nestedAssignment_discards :
    ∃ q, expression { needsValue := true } Ends.statement nestedAssignment = .ok () q ∧
      ∃ (e : Expr) (u : List Token) (C : List Command), wordsOf u = e.words ∧
        nestedAssignment.Progress u C q ∧ ∀ printed, ∃ D c,
          expression { printed := printed } Ends.statement nestedAssignment =
            .ok () (q.recode c) ∧
          nestedAssignment.Progress u D (q.recode c) ∧
          e.Discards (if printed then .print else .pop) C D ∧
          (printed = false →
            ∀ s, Abacus.machine.run D s = Abacus.machine.run (C ++ [(.pop, [])]) s) := by
  have hrun : (match expression { needsValue := true } Ends.statement nestedAssignment with
      | .ok _ _ => true | .error _ _ => false) = true := by decide +kernel
  have hp : nestedAssignment.InOrder := inOrder_start rfl _
  cases hm : expression { needsValue := true } Ends.statement nestedAssignment with
  | error s q =>
    rw [hm] at hrun
    cases hrun
  | ok _ q =>
    obtain ⟨e, u, C, -, hwords, hC, -, h⟩ := expression_discards {} hp hm
    refine ⟨q, rfl, e, u, C, hwords, hC, fun printed => ?_⟩
    obtain ⟨D, c, hD, hprogress, hdiscards, hruns⟩ := h printed
    exact ⟨D, c, hD, hprogress, hdiscards, fun hdropped => hruns hdropped Abacus Abacus.machine⟩

end Compile

end DeskCalc
