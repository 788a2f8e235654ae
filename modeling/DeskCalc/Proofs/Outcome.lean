import DeskCalc.Pass

/-!
# What a part of the compiler ensures

`Ensures m p Q E` says what running `m` on the pass `p` comes to: an answer and a pass with `Q`, or
a stop and a pass with `E`. Both outcomes keep the pass, because a failure does not undo what was
done before it.

The rules below take a computation apart. A sequence is `ensures_bind`, a loop is
`ensures_iterate`, which asks for a number that every repetition makes smaller: the bound of the
loop is then never met, and the rule says nothing about it.
-/

namespace DeskCalc.Compile

variable {α β γ : Type} {p : Pass} {Q Q' : α → Pass → Prop} {E E' : Stop → Pass → Prop}
  {m : Compile α} {a : α} {step : α → Compile (α ⊕ β)} {q : Pass}

/-- Run on `p`, the computation `m` answers with `Q` or stops with `E`. -/
def Ensures (m : Compile α) (p : Pass) (Q : α → Pass → Prop) (E : Stop → Pass → Prop) : Prop :=
  match m p with
  | .ok a q => Q a q
  | .error e q => E e q

theorem ensures_of_ok (h : m p = .ok a q) (hq : Q a q) : Ensures m p Q E := by
  simp only [Ensures, h]
  exact hq

theorem Ensures.ok (h : Ensures m p Q E) (hm : m p = .ok a q) : Q a q := by
  simpa only [Ensures, hm] using h

theorem Ensures.error {e : Stop} (h : Ensures m p Q E) (hm : m p = .error e q) : E e q := by
  simpa only [Ensures, hm] using h

theorem Ensures.mono (h : Ensures m p Q E) (hQ : ∀ a q, Q a q → Q' a q) (hE : ∀ e q, E e q → E' e q) :
    Ensures m p Q' E' := by
  unfold Ensures at h ⊢
  split
  · next hm =>
    rw [hm] at h
    exact hQ _ _ h
  · next hm =>
    rw [hm] at h
    exact hE _ _ h

theorem Ensures.imp (h : Ensures m p Q E) (hQ : ∀ a q, Q a q → Q' a q) : Ensures m p Q' E :=
  h.mono hQ fun _ _ => id

theorem ensures_self (m : Compile α) :
    Ensures m p (fun a q => m p = .ok a q) fun e q => m p = .error e q := by
  unfold Ensures
  split
  · next hm => exact hm
  · next hm => exact hm

/-- A computation has one outcome, so that two things known of it hold together. -/
theorem Ensures.and (h : Ensures m p Q E) (h' : Ensures m p Q' E') :
    Ensures m p (fun a q => Q a q ∧ Q' a q) (fun e q => E e q ∧ E' e q) := by
  unfold Ensures at h h' ⊢
  split
  · next hm =>
    rw [hm] at h h'
    exact ⟨h, h'⟩
  · next hm =>
    rw [hm] at h h'
    exact ⟨h, h'⟩

/-! ## Rules -/

@[simp] theorem ensures_pure (a : α) : Ensures (pure a) p Q E ↔ Q a p := Iff.rfl

@[simp] theorem ensures_throw (e : Stop) : Ensures (throw e : Compile α) p Q E ↔ E e p := Iff.rfl

@[simp] theorem ensures_bind (m : Compile β) (f : β → Compile α) :
    Ensures (m >>= f) p Q E ↔ Ensures m p (fun b q => Ensures (f b) q Q E) E := by
  simp only [Ensures, bind, EStateM.bind]
  cases m p <;> rfl

@[simp] theorem ensures_get {Q : Pass → Pass → Prop} : Ensures get p Q E ↔ Q p p := Iff.rfl

@[simp] theorem ensures_set {Q : PUnit → Pass → Prop} (q : Pass) :
    Ensures (set q) p Q E ↔ Q ⟨⟩ q := Iff.rfl

@[simp] theorem ensures_modify {Q : PUnit → Pass → Prop} (f : Pass → Pass) :
    Ensures (modify f) p Q E ↔ Q ⟨⟩ (f p) := Iff.rfl

@[simp] theorem ensures_ite (c : Prop) [Decidable c] (m n : Compile α) :
    Ensures (if c then m else n) p Q E ↔
      if c then Ensures m p Q E else Ensures n p Q E := by
  split <;> rfl

/-- The first half of a sequence is known; the second half starts where it ends. -/
theorem Ensures.bind {m : Compile β} {f : β → Compile α} {R : β → Pass → Prop}
    {F : Stop → Pass → Prop} (h : Ensures m p R F) (hf : ∀ b q, R b q → Ensures (f b) q Q E)
    (hE : ∀ e q, F e q → E e q) : Ensures (m >>= f) p Q E :=
  (ensures_bind m f).2 (h.mono hf hE)

/-! ## Loops -/

/-- One repetition of a loop. The rest of the loop starts with a smaller number, for which any
bound that is large enough will do. -/
theorem ensures_iterate_of_step {Q : β → Pass → Prop} (μ : Pass → Nat) {bound : List γ}
    (hb : μ p ≤ bound.length)
    (h : Ensures (step a) p (fun r q =>
      match r with
      | .inl a' => μ q < μ p ∧
          ∀ bound' : List γ, μ q ≤ bound'.length → Ensures (iterate step bound' a') q Q E
      | .inr b => Q b q) E) : Ensures (iterate step bound a) p Q E := by
  cases bound with
  | nil =>
    rw [iterate]
    refine Ensures.bind h ?_ fun _ _ => id
    rintro (a' | b) q hr
    · simp only [List.length_nil] at hb
      omega
    · exact hr
  | cons c bound =>
    rw [iterate]
    refine Ensures.bind h ?_ fun _ _ => id
    rintro (a' | b) q hr
    · refine hr.2 bound ?_
      simp only [List.length_cons] at hb
      omega
    · exact hr

/-- A loop keeps what each of its repetitions keeps. -/
theorem ensures_iterate {Q : β → Pass → Prop} (μ : Pass → Nat) (I : α → Pass → Prop)
    (hstep : ∀ a p, I a p → Ensures (step a) p (fun r q =>
      match r with
      | .inl a' => I a' q ∧ μ q < μ p
      | .inr b => Q b q) E) (bound : List γ) (a : α) (p : Pass) (hI : I a p)
    (hb : μ p ≤ bound.length) : Ensures (iterate step bound a) p Q E := by
  -- the induction is on the number that gets smaller, for every bound at once
  induction hn : μ p using Nat.strongRecOn generalizing a p bound with
  | _ n ih =>
    refine ensures_iterate_of_step μ hb ((hstep a p hI).imp ?_)
    rintro (a' | b) q hr
    · exact ⟨hr.2, fun bound' hb' => ih (μ q) (hn ▸ hr.2) bound' a' q hr.1 hb' rfl⟩
    · exact hr

/-- The loops that move past a token with every repetition. -/
theorem ensures_perToken {Q : β → Pass → Prop} (I : α → Pass → Prop)
    (hstep : ∀ a p, I a p → Ensures (step a) p (fun r q =>
      match r with
      | .inl a' => I a' q ∧ q.upcoming.length < p.upcoming.length
      | .inr b => Q b q) E) (hI : I a p) : Ensures (perToken step a) p Q E := by
  simp only [perToken, ensures_bind, ensures_get]
  exact ensures_iterate (fun q => q.upcoming.length) I hstep _ a p hI (Nat.le_refl _)

/-! ## Success -/

/-- Where `m` succeeds on `p` it answers with `Q`. -/
abbrev Accepts (m : Compile α) (p : Pass) (Q : α → Pass → Prop) : Prop :=
  Ensures m p Q fun _ _ => True

theorem bind_eq_ok {f : α → Compile β} {b : β} {r : Pass} (h : (m >>= f) p = .ok b r) :
    ∃ a q, m p = .ok a q ∧ f a q = .ok b r := by
  simp only [bind, EStateM.bind] at h
  cases hm : m p with
  | ok a q =>
    rw [hm] at h
    exact ⟨a, q, rfl, h⟩
  | error e q =>
    rw [hm] at h
    cases h

theorem bind_of_ok {f : α → Compile β} (h : m p = .ok a q) : (m >>= f) p = f a q := by
  simp only [bind, EStateM.bind, h]

theorem get_bind (f : Pass → Compile β) : (get >>= f) p = f p p := rfl

/-- A loop ends with its last repetition. -/
theorem exists_of_iterate {bound : List γ} {b : β} (h : iterate step bound a p = .ok b q) :
    ∃ a' p', step a' p' = .ok (.inr b) q := by
  induction bound generalizing a p with
  | nil =>
    rw [iterate] at h
    obtain ⟨r, p', hr, h⟩ := bind_eq_ok h
    cases r with
    | inl a' => cases h
    | inr b' =>
      cases h
      exact ⟨a, p, hr⟩
  | cons c bound ih =>
    rw [iterate] at h
    obtain ⟨r, p', hr, h⟩ := bind_eq_ok h
    cases r with
    | inl a' => exact ih h
    | inr b' =>
      cases h
      exact ⟨a, p, hr⟩

/-- Where a loop succeeds it has kept what each of its repetitions keeps. -/
theorem accepts_iterate {Q : β → Pass → Prop} (I : α → Pass → Prop)
    (hstep : ∀ a p, I a p → Accepts (step a) p fun r q =>
      match r with
      | .inl a' => I a' q
      | .inr b => Q b q) (bound : List γ) (a : α) (p : Pass) (hI : I a p) :
    Accepts (iterate step bound a) p Q := by
  induction bound generalizing a p with
  | nil =>
    rw [iterate]
    refine Ensures.bind (hstep a p hI) ?_ fun _ _ => id
    rintro (a' | b) q hr
    · trivial
    · exact hr
  | cons c bound ih =>
    rw [iterate]
    refine Ensures.bind (hstep a p hI) ?_ fun _ _ => id
    rintro (a' | b) q hr
    · exact ih a' q hr
    · exact hr

theorem accepts_perToken {Q : β → Pass → Prop} (I : α → Pass → Prop)
    (hstep : ∀ a p, I a p → Accepts (step a) p fun r q =>
      match r with
      | .inl a' => I a' q
      | .inr b => Q b q) (hI : I a p) : Accepts (perToken step a) p Q := by
  simp only [perToken, ensures_bind, ensures_get]
  exact accepts_iterate I hstep _ a p hI

/-- Beginning with `a` at `p`, the repetitions of a loop have come to the state and the pass at the
end. -/
inductive Repeats {α β : Type} (step : α → Compile (α ⊕ β)) (a : α) (p : Pass) : α → Pass → Prop
  | refl : Repeats step a p a p
  | next {b c : α} {q r : Pass} (h : Repeats step a p b q) (hstep : step b q = .ok (.inl c) r) :
      Repeats step a p c r

/-- What every repetition keeps holds of whatever the loop comes to. -/
theorem Repeats.keeps {b : α} {q : Pass} {I : α → Pass → Prop} (h : Repeats step a p b q)
    (hI : I a p) (hstep : ∀ a p, I a p → Ensures (step a) p (fun r q =>
      match r with
      | .inl a' => I a' q
      | .inr _ => True) (fun _ _ => True)) : I b q := by
  induction h with
  | refl => exact hI
  | next _ hm ih => exact (hstep _ _ ih).ok hm

end DeskCalc.Compile
