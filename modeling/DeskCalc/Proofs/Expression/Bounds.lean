import DeskCalc.Expression

/-!
# Bounds make no difference

Loops and nested expressions are compiled within a bound that is taken from the tokens to come. A
smaller bound leads to the same outcome, or it is exceeded (`Within`).
-/

namespace DeskCalc

namespace Compile

/-- The computation exceeds a bound. -/
def Exceeds {α : Type} (m : Compile α) (p : Pass) : Prop :=
  ∃ q, m p = .error (.fault .unbounded) q

/-- The first computation does what the second one does, as long as it exceeds no bound. -/
def Within {α : Type} (m M : Compile α) : Prop := ∀ p, m p = M p ∨ Exceeds m p

/-- A larger bound makes no difference, unless the smaller one is exceeded. -/
def Bounded {α γ : Type} (f : List γ → Compile α) : Prop :=
  ∀ u v, u.length ≤ v.length → Within (f u) (f v)

variable {α β γ δ : Type}

theorem within_refl (m : Compile α) : Within m m := fun _ => .inl rfl

theorem exceeds_bind {m : Compile α} {p : Pass} (h : Exceeds m p) (f : α → Compile β) :
    Exceeds (m >>= f) p := by
  obtain ⟨q, hq⟩ := h
  refine ⟨q, ?_⟩
  simp only [bind, EStateM.bind, hq]

/-- The second half of a sequence starts where the first one ends. -/
theorem within_bind_at {m M : Compile α} {f F : α → Compile β} {p P : Pass}
    (hm : m p = M P ∨ Exceeds m p)
    (hf : ∀ a q, m p = .ok a q → f a q = F a q ∨ Exceeds (f a) q) :
    (m >>= f) p = (M >>= F) P ∨ Exceeds (m >>= f) p := by
  rcases hm with hp | hp
  · simp only [Exceeds, bind, EStateM.bind, ← hp]
    cases hm : m p with
    | ok a q => exact hf a q hm
    | error e q => exact .inl rfl
  · exact .inr (exceeds_bind hp f)

theorem Within.bind {m M : Compile α} {f F : α → Compile β} (hm : Within m M)
    (hf : ∀ a, Within (f a) (F a)) : Within (m >>= f) (M >>= F) :=
  fun p => within_bind_at (hm p) fun a q _ => hf a q

/-- **A loop with a smaller bound.** -/
theorem bounded_iterate {step : α → Compile (α ⊕ β)} (a : α) :
    Bounded (γ := γ) fun bound => iterate step bound a := by
  intro u v huv
  have hexceeds {m : Compile β} : Within (throw (.fault .unbounded)) m := fun p => .inr ⟨p, rfl⟩
  induction u generalizing v a with
  | nil =>
    cases v <;>
    · refine (within_refl (step a)).bind fun r => ?_
      cases r with
      | inl a => exact hexceeds
      | inr b => exact within_refl _
  | cons c u ih =>
    cases v with
    | nil => cases huv
    | cons d v =>
      refine (within_refl (step a)).bind fun r => ?_
      cases r with
      | inl a => exact ih a v (Nat.le_of_succ_le_succ huv)
      | inr b => exact within_refl _

end Compile

end DeskCalc
