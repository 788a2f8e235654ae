import DeskCalc.Proofs.Counters
import DeskCalc.Proofs.Expression.Parts
import DeskCalc.Proofs.Stack

/-!
# Nested expressions on one stack of operators

The operators of an expression wait above those of the expressions around it. It is compiled as if
nothing lay under them (`oblivious`), whatever comes of it, and where it is compiled it leaves the
stack as it was.

While it is compiled its tally is exact: the code so far leaves as many values as it counts, and it
counts the parentheses that wait. So an operator that applies finds its operands among the values
that are counted (`Affords`), except where the last ones apply for an expression that is refused.
-/

namespace DeskCalc

/-- The pass with some operators under those that wait. -/
def Pass.over (p : Pass) (ops : List Operator) : Pass := { p with operators := p.operators ++ ops }

namespace Compile

variable {α : Type} {p p₀ q : Pass} {fs gs : List Frame} {x : Option Expr} {t : Tally}
  {array : Bool}

/-! ## Operators under those of the expression -/

/-- The same outcome with some operators under those that wait. -/
def onto (ops : List Operator) : EStateM.Result Stop Pass α → EStateM.Result Stop Pass α
  | .ok a q => .ok a (q.over ops)
  | .error e q => .error e (q.over ops)

theorem bind_onto {β : Type} {m M : Compile α} {f F : α → Compile β} {ops : List Operator}
    (hm : M q = onto ops (m p))
    (hf : ∀ a r, m p = .ok a r → F a (r.over ops) = onto ops (f a r)) :
    (M >>= F) q = onto ops ((m >>= f) p) := by
  change EStateM.bind M F q = onto ops (EStateM.bind m f p)
  unfold EStateM.bind
  rw [hm]
  cases hq : m p with
  | ok a q => exact hf a q hq
  | error e q => rfl

theorem modifyFunction_onto (change : Function → Function) (p : Pass) (ops : List Operator) :
    modifyFunction change (p.over ops) = onto ops (modifyFunction change p) := by
  change (if p.program.hasFunction p.target then _ else _ : Compile Unit) _ =
    onto ops ((if p.program.hasFunction p.target then _ else _ : Compile Unit) p)
  split <;> rfl

theorem suppressValue_onto (t : Tally) (p : Pass) (ops : List Operator) :
    suppressValue t (p.over ops) = onto ops (suppressValue t p) := by
  refine bind_onto ?_ fun f q _ => bind_onto rfl fun line r _ => ?_
  · cases hf : p.program.function? p.target <;> simp only [function, get_bind, Pass.over, hf] <;> rfl
  · cases f.code.discardValue? t line.line <;> rfl

/-- **What looks at operators of its own only.** -/
def oblivious (ops : List Operator) : Parts where
  Rel p P := P = p.over ops
  Out m p M P := M P = onto ops (m p)
  Like t T := T = t
  Fit _ := True
  reads := true
  under := ops
  like := .of_eq
  view h := h ▸ ⟨rfl, rfl, rfl⟩
  fit _ _ := trivial
  pure h _ := h ▸ rfl
  refuse h ht _ _ := h ▸ ht ▸ rfl
  bind hm hf := bind_onto hm fun a q hq => hf a q _ hq rfl
  get h := h
  exceed h := h ▸ rfl
  bounded h _ _ hgood := by
    subst h
    exact hgood _
  advance {p _} h := by
    subst h
    rcases p with ⟨s, token, previous, _ | ⟨⟨t, ws, _ | n⟩, rest⟩, quitting⟩ <;> rfl
  atDelimiter h := h ▸ rfl
  report {p _ _ _} h ht v := by
    subst h ht
    rcases p with ⟨⟨P, _ | _ | _⟩⟩ <;> rfl
  operators h _ _ hops := h ▸ hops ▸ rfl
  emit h _ _ := h ▸ bind_onto rfl fun _ _ _ => modifyFunction_onto ..
  enter {p _ t _} h ht e _ := by
    subst h ht
    change (lift (e.enter _ p.program) >>= _ : Compile Nat) _ =
      onto ops ((lift (e.enter _ p.program) >>= _ : Compile Nat) p)
    refine bind_onto ?_ fun _ _ _ => rfl
    cases e.enter _ p.program <;> rfl
  suppressValue h t := h ▸ suppressValue_onto t ..

instance permits_oblivious (ops : List Operator) (ctx : Context) : Permits (oblivious ops) ctx :=
  ⟨fun _ => rfl⟩

/-! ## What is counted -/

/-- The code of the frames leaves one entry for each left operand. -/
theorem execute_frameCode (hfs : ∀ f ∈ fs, f.wellFormed = true) :
    ∃ entries, entries.length = fs.countP Frame.isBinary ∧
      ∀ stack, executeSymbolic (frameCode fs) stack = some (entries ++ stack) := by
  induction fs with
  | nil => exact ⟨[], rfl, fun _ => rfl⟩
  | cons f fs ih =>
    obtain ⟨entries, hlength, hrun⟩ := ih fun g hg => hfs g (List.mem_cons_of_mem _ hg)
    have hf := hfs f List.mem_cons_self
    cases f with
    | paren | prefixed op =>
      refine ⟨entries, hlength, fun stack => ?_⟩
      exact (congrArg (executeSymbolic · stack) (List.append_nil _)).trans (hrun stack)
    | binary left op =>
      have hleft : left.wellFormed false = true := by
        simp only [Frame.wellFormed, Bool.and_eq_true] at hf
        exact hf.2
      refine ⟨left.entry :: entries, ?_, fun stack => ?_⟩
      · rw [List.length_cons, hlength, List.countP_cons]
        rfl
      rw [frameCode, executeSymbolic_append, hrun]
      exact left.execute_postorder hleft _

/-- **The values are those that the code leaves.** -/
theorem executes_of_partway (h : Partway p₀ array fs x t p) :
    ∃ u code entries, p₀.Emits u code p ∧ entries.length = t.values ∧
      ∀ stack, executeSymbolic code stack = some (entries ++ stack) := by
  obtain ⟨u, -, hu⟩ := h.emits
  obtain ⟨entries, hlength, hrun⟩ := execute_frameCode h.standing.frames
  refine ⟨u, _, (x.map Expr.entry).toList ++ entries, hu, ?_, fun stack => ?_⟩
  · rw [h.values, ← hlength]
    cases x <;> simp
  · rw [executeSymbolic_append, hrun]
    cases x with
    | none => rfl
    | some e => exact e.execute_postorder (h.wellFormed e rfl) _

/-- The operators apply one after the other, and each finds its operands among so many values. -/
def Affords : Nat → List Operator → Prop
  | _, [] => True
  | n, op :: ops => if op.isUnary then 1 ≤ n ∧ Affords n ops else 2 ≤ n ∧ Affords (n - 1) ops

/-- The operators of frames find their left operands, and one operand behind them all. -/
theorem affords_frames (hgs : ∀ g ∈ gs, g.wellFormed = true) (hparen : ∀ g ∈ gs, g.isParen = false)
    {n : Nat} (hn : gs.countP Frame.isBinary < n) : Affords n (gs.map Frame.op) := by
  induction gs generalizing n with
  | nil => trivial
  | cons g gs ih =>
    have hrest {m : Nat} (hm : gs.countP Frame.isBinary < m) : Affords m (gs.map Frame.op) :=
      ih (fun f hf => hgs f (List.mem_cons_of_mem _ hf))
        (fun f hf => hparen f (List.mem_cons_of_mem _ hf)) hm
    rw [List.map_cons, Affords, Frame.isUnary_op (hgs g List.mem_cons_self)
      (hparen g List.mem_cons_self)]
    rw [List.countP_cons] at hn
    cases hbinary : g.isBinary with
    | true =>
      rw [if_pos hbinary] at hn
      exact ⟨by omega, hrest (by omega)⟩
    | false => exact ⟨by omega, hrest (by omega)⟩

/-- Behind an operand all operators above the last open parenthesis find theirs. -/
theorem affords_prefix {ops : List Operator} {e : Expr} (h : Partway p₀ array fs (some e) t p)
    (hops : ops <+: above p₀.operators.length p.operators) (hparen : .paren ∉ ops) :
    Affords t.values ops := by
  obtain ⟨gs, hgs, rfl⟩ : ∃ gs, gs <+: fs ∧ gs.map Frame.op = ops := by
    rw [h.above_eq, List.prefix_iff_eq_take, ← List.map_take] at hops
    exact ⟨_, List.take_prefix _ _, hops.symm⟩
  have hframes := fun g hg => h.standing.frames g (hgs.subset hg)
  refine affords_frames hframes (fun g hg => ?_) ?_
  · rw [← Bool.not_eq_true, ← Frame.op_eq_paren_iff (hframes g hg)]
    exact fun heq => hparen (heq ▸ List.mem_map_of_mem hg)
  · rw [h.values]
    exact Nat.lt_succ_of_le hgs.sublist.countP_le

theorem affords_takeWhile {test : Operator → Bool} {e : Expr}
    (h : Partway p₀ array fs (some e) t p) (htest : test .paren = false) :
    Affords t.values ((above p₀.operators.length p.operators).takeWhile test) := by
  refine affords_prefix h (List.takeWhile_prefix _) fun hmem => ?_
  rw [List.all_eq_true.1 List.all_takeWhile _ hmem] at htest
  cases htest

/-! ## Expressions -/

/-- What is counted while an expression that began at `p₀`, where `base` operators waited, is
compiled. -/
structure Exact (p₀ : Pass) (base : Nat) (t : Tally) (p : Pass) : Prop where
  /-- The parentheses are those that wait above the operators of other expressions. -/
  parens : ∃ own, p.operators = own ++ p₀.operators ∧ own.count .paren = t.parens
  /-- The values are those that the code so far leaves. -/
  values : ∃ u code entries, p₀.Emits u code p ∧ entries.length = t.values ∧
    ∀ stack, executeSymbolic code stack = some (entries ++ stack)
  /-- What applies before another operator can wait finds its operands. -/
  waiting : ∀ op : Operator, op.isUnary = !t.complete →
    Affords t.values ((above base p.operators).takeWhile (·.appliesBefore op))
  /-- What applies at a closing parenthesis finds its operands. -/
  closing : t.complete = true → Affords t.values ((above base p.operators).takeWhile (· != .paren))
  /-- What applies at the end finds its operands, unless the expression is refused. -/
  draining : ∀ ctx ends parenFirst q, endExpression base ctx ends parenFirst t p = .ok () q →
    Affords t.values (above base p.operators)

/-- Where the last operators apply no parenthesis waits. -/
theorem not_mem_of_drain {base : Nat} {t' : Tally} (h : drain base t p = .ok t' q) :
    .paren ∉ above base p.operators := by
  change (if (above base p.operators).contains .paren then refuseHere _ else _ : Compile Tally) p =
    _ at h
  intro hmem
  rw [if_pos (List.contains_iff_mem.2 hmem)] at h
  cases h

/-- An operator that comes before its operand makes none apply. -/
theorem not_appliesBefore {op : Operator} (hop : op.isUnary = true) (top : Operator) :
    ¬top.appliesBefore op = true := by
  rw [Operator.appliesBefore_iff, Operator.takesLeft_iff, Operator.isLeftAssoc_iff]
  have := (Operator.isUnary_iff op).1 hop
  have := top.precedence_pos
  omega

theorem exact_of_partway (hp₀ : p₀.InOrder) (h : Partway p₀ array fs x t p) :
    Exact p₀ p₀.operators.length t p where
  parens := by
    refine ⟨_, h.operators, ?_⟩
    rw [h.parens, List.count, List.countP_map]
    refine List.countP_congr fun f hf => ?_
    simpa using Frame.op_eq_paren_iff (h.standing.frames f hf)
  values := executes_of_partway h
  waiting op hop := by
    rw [h.complete_eq] at hop
    cases x with
    | none =>
      have hnone (ops : List Operator) : ops.takeWhile (·.appliesBefore op) = [] := by
        cases ops with
        | nil => rfl
        | cons top ops => exact List.takeWhile_cons_of_neg (not_appliesBefore hop top)
      rw [hnone]
      trivial
    | some e => exact affords_takeWhile h rfl
  closing hcomplete := by
    rw [h.complete_eq] at hcomplete
    obtain ⟨e, rfl⟩ := Option.isSome_iff_exists.1 hcomplete
    exact affords_takeWhile h rfl
  draining ctx ends parenFirst q hend := by
    obtain ⟨t', r, hr, hrest⟩ := bind_eq_ok hend
    have hvalues : t'.values = 1 := by
      by_contra hne
      rw [if_neg hne] at hrest
      cases hrest
    obtain ⟨e, rfl⟩ := Option.ne_none_iff_exists'.1 (((drain_sound hp₀ h).ok hr).2 hvalues).1
    exact affords_prefix h (List.prefix_refl _) (not_mem_of_drain hr)

end Compile

open Compile in
/-- What an expression that begins at `p` does to the operators that wait. -/
structure Pass.Isolates (p : Pass) (bound : List Reading) (ctx : Context) (ends : Ends) : Prop where
  /-- It is compiled as if none had waited before it. Those that did lie under its own, whatever comes
  of it. -/
  frame : expressionAt bound ctx ends p =
    onto p.operators (expressionAt bound ctx ends { p with operators := [] })
  /-- If it is compiled none of its own are left. -/
  restored : ∀ r q, expressionAt bound ctx ends p = .ok r q → q.operators = p.operators
  /-- Wherever its loop comes to. -/
  counts : ∀ p₁ ctx' t q, (if ctx.answer then pure () else skipNewlines) p = .ok () p₁ →
    Repeats (turnStep (nested bound) p.operators.length) (ctx, {}) p₁ (ctx', t) q →
    Exact p p.operators.length t q

namespace Compile

/-- Before an expression only line feeds are skipped. -/
theorem exists_of_skip {ctx : Context} {p₁ : Pass} (hp : p.InOrder)
    (h : (if ctx.answer then pure () else skipNewlines) p = .ok () p₁) :
    ∃ v, p.Compiles v [] p₁ := by
  split at h
  · cases h
    exact ⟨[], .refl hp⟩
  · exact (skipNewlines_sound (Q := fun _ q => ∃ v, p.Compiles v [] q) hp (.refl hp)
      fun v q _ hq _ => ⟨_, hq⟩).ok h

theorem Exact.behind {v : List Token} {p₁ : Pass} (hp : p.Compiles v [] p₁)
    (h : Exact p₁ p₁.operators.length t q) : Exact p p.operators.length t q := by
  obtain ⟨u, code, entries, hu, hlength, hrun⟩ := h.values
  rw [← hp.operators]
  exact ⟨hp.operators ▸ h.parens, ⟨_, _, entries, hp.progress.trans hu, hlength, hrun⟩, h.waiting,
    h.closing, h.draining⟩

end Compile

open Compile in
/-- **Expressions leave each other's operators alone, and what they count is exact.** -/
theorem Pass.isolates {p : Pass} (hp : p.InOrder) {bound : List Reading}
    (hbound : p.upcoming.length ≤ bound.length) (ctx : Context) (ends : Ends) :
    p.Isolates bound ctx ends where
  frame := (oblivious p.operators).run (p := { p with operators := [] }) rfl
  restored r q h := by
    have hread := (expressionAt_sound bound hp hbound).ok h
    cases r with
    | value =>
      obtain ⟨_, _, _, _, hq⟩ := hread
      exact hq.operators
    | empty =>
      obtain ⟨_, _, _, _, hq⟩ := hread
      exact hq.operators
  counts p₁ ctx' t q hskip h := by
    obtain ⟨v, hv⟩ := exists_of_skip hp hskip
    have hlength := hv.length_eq
    rw [← hv.operators] at h
    obtain ⟨-, fs, x, hpart⟩ := h.partway (hv.inOrder hp) (by omega)
    exact (exact_of_partway (hv.inOrder hp) hpart).behind hv

/-- An expression with nested ones, before which operators of another one wait. -/
def nestedStart : Pass :=
  Pass.start { Session.new {} with operators := [.arith .plus, .paren] }
    "a[i * (j - 1)] = -f(x, (y)) ^ 2 + b\n"

theorem nestedStart_isolates : nestedStart.InOrder ∧ nestedStart.operators.length = 2 ∧
    nestedStart.Isolates nestedStart.upcoming { printed := true } Ends.statement := by
  have hp : nestedStart.InOrder := inOrder_start rfl _
  exact ⟨hp, rfl, Pass.isolates hp (Nat.le_refl _) _ _⟩

end DeskCalc
