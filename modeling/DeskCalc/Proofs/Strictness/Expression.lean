import DeskCalc.Proofs.Expression.Parts
import DeskCalc.Proofs.Strictness.Paired

/-!
# Expressions under two strictnesses

Both passes compile an expression in lockstep: no part of it looks at the strictness, except to
report a string operand or a comparison.
-/

namespace DeskCalc.Compile

open Pass

variable {α : Type} {μ : Strictness} {auto quit : Bool}

/-- A look at a token, and what depends on it. -/
theorem lockstep_ifAt {k : Token.Kind} {m M n N : Compile α} (hm : Lockstep μ auto quit m M)
    (hn : Lockstep μ auto quit n N) :
    Lockstep μ auto quit (do if ← isAt k then m else n) (do if ← isAt k then M else N) :=
  (isAt_abreast k).bind fun _ => together_ite hm hn

theorem string_lockstep : Lockstep μ auto quit string string := by
  refine lockstep_get fun p P h => ?_
  rw [h.token]
  refine (intern_parallel (TableEntry.interns (.constant _) _ _)).bind fun index => ?_
  exact (emitWith_parallel _ _).bind fun _ => advance_abreast

/-- The value of an expression is dropped in the same way. -/
theorem same_discardValue {f F : Function} (h : μ.Same Function.unlined f F) (t : Tally)
    (line : Nat) :
    (f.code.discardValue? t line = none ∧ F.code.discardValue? t line = none) ∨
      ∃ c C, f.code.discardValue? t line = some c ∧ F.code.discardValue? t line = some C ∧
        μ.Same Function.unlined { f with code := c } { F with code := C } := by
  have hcode : F.code.unlined = f.code.unlined := congrArg Function.code h.forgets
  have hdiscard : (F.code.discardValue? t line).map Code.unlined =
      (f.code.discardValue? t line).map Code.unlined := by
    rw [← Code.discardValue?_unlined, hcode, Code.discardValue?_unlined]
  cases hf : f.code.discardValue? t line with
  | none =>
    rw [hf, Option.map_none, Option.map_eq_none_iff] at hdiscard
    exact .inl ⟨rfl, hdiscard⟩
  | some c =>
    rw [hf, Option.map_some, Option.map_eq_some_iff] at hdiscard
    obtain ⟨C, hC, heq⟩ := hdiscard
    refine .inr ⟨c, C, rfl, hC, ?_, fun hμ => ?_⟩
    · have hF := h.forgets
      simp only [Function.unlined, Function.mk.injEq] at hF ⊢
      simp [hF, heq]
    · have hF := h.eq hμ
      subst hF
      rw [hf, Option.some.injEq] at hC
      rw [hC]

theorem suppressValue_lockstep (t : Tally) :
    Lockstep μ auto quit (suppressValue t) (suppressValue t) := by
  refine parallel_function fun f F h => here_abreast.bind fun span => ?_
  rcases same_discardValue h t span.line with ⟨hf, hF⟩ | ⟨c, C, hf, hF, hsame⟩
  · rw [hf, hF]
    exact together_pure _
  · rw [hf, hF]
    exact (parallel_putFunction hsame).bind fun _ => together_pure _

/-- A bound that is taken from the tokens to come. Only its length counts, and not even that for a
strict pass. -/
theorem paired_upcoming {f F : List Reading → Compile α} {T : α → α → Pass → Pass → Prop} {p : Pass}
    {X : Option Pass} (h : p.Partner (Level μ auto quit) X) (hf : Bounded f) (hF : Bounded F)
    (hpaired : ∀ u, Paired μ (f u) p (F u) X T) :
    Paired μ (f p.upcoming) p (F (X.getD p).upcoming) X T := by
  cases X with
  | none => exact hpaired p.upcoming
  | some P =>
    have hmain (u : List Reading) : Agrees μ T (f u p) (F u P) := hpaired u
    change Agrees μ T (f p.upcoming p) (F P.upcoming P)
    by_cases hμ : μ = .strict
    · -- the longer one of both bounds serves both passes
      obtain ⟨u, hu, hU⟩ : ∃ u : List Reading, p.upcoming.length ≤ u.length ∧
          P.upcoming.length ≤ u.length := by
        rcases Nat.le_total p.upcoming.length P.upcoming.length with h | h
        · exact ⟨_, h, Nat.le_refl _⟩
        · exact ⟨_, Nat.le_refl _, h⟩
      rcases hf _ u hu p with hp | ⟨q, hq⟩
      · rcases hF _ u hU P with hP | ⟨Q, hQ⟩
        · rw [hp, hP]
          exact hmain u
        · rw [hQ]
          cases f p.upcoming p with
          | ok a q => exact ⟨hμ, .inr (not_isRefusal_fault _)⟩
          | error e q => exact .inl hμ
      · rw [hq]
        cases F P.upcoming P with
        | ok b Q => exact ⟨hμ, not_isRefusal_fault _⟩
        | error e Q => exact .inl hμ
    · have hlength := h.spot.upcoming.length_eq hμ
      have hagrees := hmain p.upcoming
      rcases hF P.upcoming p.upcoming (Nat.le_of_eq hlength) P with hP | ⟨Q, hQ⟩
      · rwa [hP]
      · rcases hF p.upcoming P.upcoming (Nat.le_of_eq hlength.symm) P with hP | ⟨R, hR⟩
        · rwa [← hP]
        · rw [hQ]
          rw [hR] at hagrees
          cases hp : f p.upcoming p <;> rw [hp] at hagrees <;> exact hagrees

/-- **What both passes do in lockstep.** -/
def lockstep (μ : Strictness) (auto quit : Bool) : Parts where
  Rel p P := ∃ X, P = X.getD p ∧ p.Partner (Level μ auto quit) X
  Out m p M P := ∀ X, P = X.getD p → p.Partner (Level μ auto quit) X →
    Paired μ m p M X fun a b q Q => b = a ∧ q.Level μ auto quit Q
  Like t T := T = t
  Fit _ := True
  reads := true
  under := []
  like := .of_eq
  view := by
    rintro p _ ⟨X, rfl, h⟩
    rw [List.append_nil]
    exact ⟨(sees_of_partner h).token, (sees_of_partner h).previous, (same_of_partner h).operators⟩
  fit _ _ := trivial
  pure _ a X _ h := together_pure a _ X h
  refuse _ ht _ _ _ _ _ := ht ▸ paired_throw _
  bind hm hf X hP h := (hm X hP h).andThen fun a b q Y hq hY => by
    cases Y with
    | none => exact hf a q q hq ⟨none, rfl, hY⟩ none rfl hY
    | some Q =>
      obtain ⟨rfl, hY⟩ := hY
      exact hf _ q Q hq ⟨some Q, rfl, hY⟩ (some Q) rfl hY
  get hf X hP h := paired_get (hP ▸ hf X hP h)
  exceed _ _ _ _ := paired_throw _
  bounded _ hf hF hgood X hP h := hP ▸ paired_upcoming h hf hF fun u => hgood u X hP h
  advance _ X _ h := advance_abreast _ X h
  atDelimiter _ X _ h := atDelimiter_lockstep _ X h
  report _ ht v X _ h := ht ▸ report_abreast v _ _ X h
  operators {p _} _ _ ops hops X hP h := by
    rw [List.append_nil] at hops
    subst hops hP
    have hset := operators_parallel ops p X h
    cases X <;> exact hset
  emit _ _ _ X _ h := emitWith_parallel _ _ _ X h
  enter _ ht e _ X _ h := by
    subst ht
    exact intern_parallel (e.interns _ _) _ X h
  suppressValue _ t X _ h := suppressValue_lockstep t _ X h

theorem lockstep_of_fine {m M : Compile α} (h : Alongside (lockstep μ auto quit) m M) :
    Lockstep μ auto quit m M :=
  fun p X hX => h.out p (X.getD p) ⟨X, rfl, hX⟩ X rfl hX

instance permits_lockstep (ctx : Context) : Permits (lockstep μ auto quit) ctx := ⟨fun _ => rfl⟩

theorem expression_lockstep (ctx : Context) (ends : Ends) :
    Lockstep μ auto quit (expression ctx ends) (expression ctx ends) :=
  lockstep_of_fine inferInstance

end DeskCalc.Compile
