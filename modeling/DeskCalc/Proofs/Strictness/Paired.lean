import DeskCalc.Proofs.Chunks.Unlined
import DeskCalc.Proofs.Strictness.Readings

/-!
# Two passes over one text

The first pass reads a text with warnings, the second reads the same text under a strictness `μ`.
`Paired` says what comes of running two computations on them: the same, as long as nothing is
noticed that POSIX does not have. Where the second pass is refused for that the first one has a
warning from then on, and nothing else is asked of it.

If `μ` is strict the two programs may differ in their lines, and a fault on either side says
nothing about the other. Otherwise the second pass does exactly what the first one does.

The rules take two computations apart that do the same work (`Parallel`).
-/

namespace DeskCalc

theorem Strictness.warn_ne_strict : Strictness.warn ≠ .strict := nofun

/-! ## The same work -/

/-- Equal, but for what `forget` forgets if `μ` is strict. -/
structure Strictness.Same (μ : Strictness) {α : Type} (forget : α → α) (a b : α) : Prop where
  forgets : forget b = forget a
  eq : μ ≠ .strict → b = a

theorem Strictness.Same.refl {μ : Strictness} {α : Type} {forget : α → α} (a : α) :
    μ.Same forget a a := ⟨rfl, fun _ => rfl⟩

/-- What does not depend on what is forgotten is the same. -/
theorem Strictness.Same.map_eq {μ : Strictness} {α β : Type} {forget : α → α} {a b : α}
    (h : μ.Same forget a b) {g : α → β} (hg : ∀ a, g (forget a) = g a) : g b = g a := by
  rw [← hg, h.forgets, hg]

/-- What is being compiled: the program, and what is open in it. -/
structure Work where
  program : Program
  blocks : BlockStack
  exits : List Exit
  continues : List Nat
  operators : List Operator
  target : Nat

/-- Where a pass is in its text, and what it says about it. -/
structure Spot where
  strictness : Strictness
  warnings : List Diagnostic
  autoAllowed : Bool
  quitting : Bool
  token : Token
  previous : Token.Kind
  upcoming : List Reading

/-- The same work, but for lines if `μ` is strict. -/
structure Work.Same (μ : Strictness) (w W : Work) : Prop where
  program : μ.Same Program.unlined w.program W.program
  blocks : W.blocks = w.blocks
  exits : W.exits = w.exits
  continues : W.continues = w.continues
  operators : W.operators = w.operators
  target : W.target = w.target

/-- The first pass is at the same token as the second, which reads its text under `μ`. Nothing
that POSIX does not have was met if `μ` is strict. -/
structure Spot.Abreast (μ : Strictness) (auto quit : Bool) (x X : Spot) : Prop where
  warn : x.strictness = .warn
  mode : X.strictness = μ
  auto : x.autoAllowed = auto ∧ X.autoAllowed = auto
  quit : x.quitting = quit ∧ X.quitting = quit
  token : X.token = x.token
  previous : X.previous = x.previous
  upcoming : Reading.Abreast μ x.upcoming X.upcoming
  clean : μ = .strict → x.warnings = [] ∧ x.token.kind ≠ .keyword .elseBranch

namespace Pass

def work (p : Pass) : Work :=
  ⟨p.program, p.blocks, p.exits, p.continues, p.operators, p.target⟩

def spot (p : Pass) : Spot :=
  ⟨p.strictness, p.warnings, p.autoAllowed, p.quitting, p.token, p.previous, p.upcoming⟩

/-- Two passes with `V` of their spots and `S` of their works. Lines are those of the current
token, so that they are the same where they count. -/
structure Beside (μ : Strictness) (V : Spot → Spot → Prop) (S : Work → Work → Prop) (p P : Pass) :
    Prop where
  spot : V p.spot P.spot
  line : μ = .strict ∨ P.token = p.token
  work : S p.work P.work

/-- Two passes at the same token that have done the same. -/
abbrev Level (μ : Strictness) (auto quit : Bool) (p P : Pass) : Prop :=
  p.Beside μ (Spot.Abreast μ auto quit) (Work.Same μ) P

theorem beside_of {μ : Strictness} {auto quit : Bool} {S : Work → Work → Prop} {p P : Pass}
    (hspot : p.spot.Abreast μ auto quit P.spot) (hwork : S p.work P.work) :
    p.Beside μ (Spot.Abreast μ auto quit) S P := ⟨hspot, .inr hspot.token, hwork⟩

/-- The second pass is `R` to the first one, unless it has been refused. Then the first one has a
warning. -/
def Partner (R : Pass → Pass → Prop) (p : Pass) : Option Pass → Prop
  | some P => R p P
  | none => p.warnings ≠ []

end Pass

namespace Compile

open Pass

variable {α β γ δ : Type} {μ : Strictness} {V : Spot → Spot → Prop} {S : Work → Work → Prop}
  {p : Pass} {X : Option Pass} {f F : Function} {change CHANGE : Function → Function}
  {T : α → α → Pass → Pass → Prop}

/-- The outcomes of two computations, see above. -/
def Agrees (μ : Strictness) (T : α → α → Pass → Pass → Prop) :
    EStateM.Result Stop Pass α → EStateM.Result Stop Pass α → Prop
  | .ok a q, .ok b Q => T a b q Q
  | .ok _ q, .error e _ => μ = .strict ∧ (q.warnings ≠ [] ∨ ¬e.IsRefusal)
  | .error e _, .ok _ _ => μ = .strict ∧ ¬e.IsRefusal
  | .error e _, .error e' _ => μ = .strict ∨ e' = e

/-- What comes of `m` on `p` and of `M` on the second pass, unless that has been refused. -/
def Paired (μ : Strictness) (m : Compile α) (p : Pass) (M : Compile α) (X : Option Pass)
    (T : α → α → Pass → Pass → Prop) : Prop :=
  match X with
  | some P => Agrees μ T (m p) (M P)
  | none => Ensures m p (fun _ q => q.warnings ≠ []) fun _ _ => True

/-- Both computations have the same answer and keep `V` and `S`. -/
def Together (μ : Strictness) (V : Spot → Spot → Prop) (S : Work → Work → Prop)
    (m M : Compile α) : Prop :=
  ∀ p X, p.Partner (Beside μ V S) X →
    Paired μ m p M X fun a b q Q => b = a ∧ q.Beside μ V S Q

/-- Both computations do the same work. -/
abbrev Parallel (μ : Strictness) (V : Spot → Spot → Prop) (m M : Compile α) : Prop :=
  Together μ V (Work.Same μ) m M

/-- Both computations read the same tokens. -/
abbrev Abreast (μ : Strictness) (auto quit : Bool) (S : Work → Work → Prop) (m M : Compile α) :
    Prop :=
  Together μ (Spot.Abreast μ auto quit) S m M

/-- Both computations read the same tokens and do the same work. -/
abbrev Lockstep (μ : Strictness) (auto quit : Bool) (m M : Compile α) : Prop :=
  Parallel μ (Spot.Abreast μ auto quit) m M

/-- A warning of the first pass stays, whatever the second one would have done. -/
theorem paired_none {m M N : Compile α} (hm : Lockstep .warn false false m M) (h : p.warnings ≠ []) :
    Paired μ m p N none T :=
  hm p none h

/-! ## Sequences -/

section Rules

variable {m M : Compile α} {f F : α → Compile β} {T T' : α → α → Pass → Pass → Prop}
  {U : β → β → Pass → Pass → Prop}

theorem Paired.mono (h : Paired μ m p M X T) (hT : ∀ a b q Q, T a b q Q → T' a b q Q) :
    Paired μ m p M X T' := by
  cases X with
  | none => exact h
  | some P =>
    unfold Paired at h ⊢
    cases hm : m p <;> cases hM : M P <;> simp only [hm, hM, Agrees] at h ⊢
    · exact hT _ _ _ _ h
    · exact h
    · exact h
    · exact h

/-- What the first pass is known to come to. -/
theorem Paired.and_left {A : α → Pass → Prop} {E : Stop → Pass → Prop} (h : Paired μ m p M X T)
    (hm : Ensures m p A E) : Paired μ m p M X fun a b q Q => T a b q Q ∧ A a q := by
  cases X with
  | none => exact h
  | some P =>
    unfold Paired at h ⊢
    cases hp : m p <;> cases hP : M P <;> simp only [hp, hP, Agrees] at h ⊢
    · exact ⟨h, hm.ok hp⟩
    · exact h
    · exact h
    · exact h

theorem Paired.and_right {P : Pass} {A : α → Pass → Prop} {E : Stop → Pass → Prop}
    (h : Paired μ m p M (some P) T) (hM : Ensures M P A E) :
    Paired μ m p M (some P) fun a b q Q => T a b q Q ∧ A b Q := by
  unfold Paired at h ⊢
  cases hp : m p <;> cases hP : M P <;> simp only [hp, hP, Agrees] at h ⊢
  · exact ⟨h, hM.ok hP⟩
  · exact h
  · exact h
  · exact h

/-- Only the first pass moves. -/
theorem paired_left {P : Pass} {m : Compile β} {f : β → Compile α}
    (h : Ensures m p (fun a q => Paired .strict (f a) q M (some P) T) fun e _ => ¬e.IsRefusal) :
    Paired .strict (m >>= f) p M (some P) T := by
  change Agrees .strict T ((m >>= f) p) (M P)
  cases hp : m p with
  | ok a q =>
    simp only [Bind.bind, EStateM.bind, hp]
    exact h.ok hp
  | error e q =>
    simp only [Bind.bind, EStateM.bind, hp]
    cases M P with
    | ok b Q => exact ⟨rfl, h.error hp⟩
    | error e' Q => exact .inl rfl

/-- The first pass where the second one is strict and succeeds. -/
theorem Paired.ensures {P Q : Pass} {b : α} (h : Paired .strict m p M (some P) T)
    (hM : M P = .ok b Q) : Ensures m p (fun a q => T a b q Q) fun e _ => ¬e.IsRefusal := by
  unfold Paired at h
  unfold Ensures
  cases hp : m p <;> simp only [hp, hM, Agrees] at h
  · exact h
  · exact h.2

/-- **A sequence.** Where the second pass is refused in its first half, the warning of the first
pass stays. -/
theorem Paired.andThen (hm : Paired μ m p M X T)
    (hf : ∀ a b q Y, m p = .ok a q → q.Partner (T a b) Y → Paired μ (f a) q (F b) Y U) :
    Paired μ (m >>= f) p (M >>= F) X U := by
  cases X with
  | none =>
    exact Ensures.bind (Ensures.and hm (ensures_self m)) (fun a q hq => hf a a q none hq.2 hq.1)
      fun _ _ _ => trivial
  | some P =>
    unfold Paired at hm ⊢
    simp only [Bind.bind, EStateM.bind]
    cases hp : m p with
    | ok a q =>
      cases hP : M P with
      | ok b Q =>
        simp only [hp, hP, Agrees] at hm
        exact hf a b q (some Q) hp hm
      | error e Q =>
        simp only [hp, hP, Agrees] at hm ⊢
        cases hr : f a q with
        | ok c r =>
          refine ⟨hm.1, hm.2.imp_left fun hq => ?_⟩
          have hkept : Ensures (f a) q (fun _ q => q.warnings ≠ []) fun _ _ => True :=
            hf a a q none hp hq
          exact hkept.ok hr
        | error e' r => exact .inl hm.1
    | error e q =>
      cases hP : M P with
      | ok b Q =>
        simp only [hp, hP, Agrees] at hm ⊢
        cases hR : F b Q with
        | ok c R => exact hm
        | error e' R => exact .inl hm.1
      | error e' Q =>
        simp only [hp, hP, Agrees] at hm ⊢
        exact hm

theorem Paired.bind (hm : Paired μ m p M X T)
    (hf : ∀ a b q Y, q.Partner (T a b) Y → Paired μ (f a) q (F b) Y U) :
    Paired μ (m >>= f) p (M >>= F) X U := hm.andThen fun a b q Y _ => hf a b q Y

theorem paired_pure {a b : α} (h : p.Partner (T a b) X) : Paired μ (pure a) p (pure b) X T := by
  cases X <;> exact h

theorem paired_throw (e : Stop) : Paired μ (throw e) p (throw e) X T := by
  cases X with
  | none => trivial
  | some P => exact .inr rfl

/-- A fault of the first pass says nothing about the second. -/
theorem paired_fault_left (hμ : μ = .strict) (fault : Fault) :
    Paired μ (throw (.fault fault)) p M X T := by
  cases X with
  | none => trivial
  | some P =>
    change Agrees μ T (.error (.fault fault) p) (M P)
    cases M P with
    | ok b Q => exact ⟨hμ, not_isRefusal_fault fault⟩
    | error e Q => exact .inl hμ

/-- A fault of the second pass says nothing about the first. -/
theorem paired_fault_right (hμ : μ = .strict) (fault : Fault)
    (h : X = none → Ensures m p (fun _ q => q.warnings ≠ []) fun _ _ => True) :
    Paired μ m p (throw (.fault fault)) X T := by
  cases X with
  | none => exact h rfl
  | some P =>
    change Agrees μ T (m p) (.error (.fault fault) P)
    cases m p with
    | ok a q => exact ⟨hμ, .inr (not_isRefusal_fault fault)⟩
    | error e q => exact .inl hμ

theorem paired_get {f F : Pass → Compile β} (h : Paired μ (f p) p (F (X.getD p)) X U) :
    Paired μ (get >>= f) p (get >>= F) X U := by
  cases X <;> exact h

theorem paired_set {q Q : Pass} {T : PUnit → PUnit → Pass → Pass → Prop}
    (h : q.Partner (T ⟨⟩ ⟨⟩) (X.map fun _ => Q)) : Paired μ (set q) p (set Q) X T := by
  cases X <;> exact h

/-- A sequence whose first half has the same answer on both sides. -/
theorem Paired.seq {R : Pass → Pass → Prop}
    (hm : Paired μ m p M X fun a b q Q => b = a ∧ R q Q)
    (hf : ∀ a q Y, q.Partner R Y → Paired μ (f a) q (F a) Y U) :
    Paired μ (m >>= f) p (M >>= F) X U := by
  refine hm.bind fun a b q Y hq => ?_
  cases Y with
  | none => exact hf a q none hq
  | some Q =>
    obtain ⟨rfl, hq⟩ := hq
    exact hf _ q (some Q) hq

theorem Together.bind (hm : Together μ V S m M) (hf : ∀ a, Together μ V S (f a) (F a)) :
    Together μ V S (m >>= f) (M >>= F) :=
  fun p X h => (hm p X h).seq fun a q Y hq => hf a q Y hq

theorem together_pure (a : α) : Together μ V S (pure a) (pure a) := by
  intro p X h
  refine paired_pure ?_
  cases X with
  | none => exact h
  | some P => exact ⟨rfl, h⟩

theorem together_throw (e : Stop) : Together μ V S (throw e : Compile α) (throw e) :=
  fun _ _ _ => paired_throw e

theorem together_ite {c : Prop} [Decidable c] {n N : Compile α} (hm : Together μ V S m M)
    (hn : Together μ V S n N) : Together μ V S (if c then m else n) (if c then M else N) := by
  split
  · exact hm
  · exact hn

/-! ## Loops -/

/-- **A loop.** Its bounds have the same length, unless a fault says nothing. -/
theorem together_iterate {step STEP : α → Compile (α ⊕ β)}
    (hstep : ∀ a, Together μ V S (step a) (STEP a)) (bound : List γ) (BOUND : List δ)
    (hbound : μ ≠ .strict → BOUND.length = bound.length) (a : α) :
    Together μ V S (iterate step bound a) (iterate STEP BOUND a) := by
  induction bound generalizing BOUND a with
  | nil =>
    cases BOUND with
    | nil =>
      refine (hstep a).bind ?_
      rintro (a' | b)
      · exact together_throw _
      · exact together_pure b
    | cons C BOUND =>
      have hμ : μ = .strict := Decidable.of_not_not fun hμ => by cases hbound hμ
      refine (hstep a).bind ?_
      rintro (a' | b)
      · exact fun _ _ _ => paired_fault_left hμ _
      · exact together_pure b
  | cons c bound ih =>
    cases BOUND with
    | nil =>
      have hμ : μ = .strict := Decidable.of_not_not fun hμ => by cases hbound hμ
      refine (hstep a).bind ?_
      rintro (a' | b)
      · intro p X h
        refine paired_fault_right hμ _ fun hX => ?_
        exact ih [] (absurd hμ) a' p none (hX ▸ h)
      · exact together_pure b
    | cons C BOUND =>
      refine (hstep a).bind ?_
      rintro (a' | b)
      · exact ih BOUND (fun hμ => by simpa using hbound hμ) a'
      · exact together_pure b

end Rules

/-! ## The work -/

/-- Only the work changes, and in the same way. -/
theorem paired_of_work {q Q : Pass} (h : p.Partner (Beside μ V (Work.Same μ)) X)
    (hspot : q.spot = p.spot) (hSpot : Q.spot = (X.getD p).spot)
    (hwork : p.work.Same μ (X.getD p).work → q.work.Same μ Q.work) :
    q.Partner (fun q Q => q.Beside μ V (Work.Same μ) Q) (X.map fun _ => Q) := by
  cases X with
  | none =>
    change q.spot.warnings ≠ []
    rw [hspot]
    exact h
  | some P =>
    refine ⟨?_, ?_, hwork h.work⟩
    · rw [hspot, hSpot]
      exact h.spot
    · change μ = .strict ∨ Q.spot.token = q.spot.token
      rw [hspot, hSpot]
      exact h.line

/-- The same change of the work. -/
theorem parallel_modify {change : Pass → Pass} (hspot : ∀ p, (change p).spot = p.spot)
    (hwork : ∀ p P, p.work.Same μ P.work → (change p).work.Same μ (change P).work) :
    Parallel μ V (modify change) (modify change) := by
  intro p X h
  have hq := paired_of_work h (hspot p) (hspot (X.getD p)) (hwork p _)
  cases X with
  | none => exact hq
  | some P => exact ⟨rfl, hq⟩

/-- What is open is the same for both. -/
structure Shares (p P : Pass) : Prop where
  blocks : P.blocks = p.blocks
  exits : P.exits = p.exits
  continues : P.continues = p.continues
  operators : P.operators = p.operators
  target : P.target = p.target

theorem same_of_partner (h : p.Partner (Beside μ V (Work.Same μ)) X) :
    p.work.Same μ (X.getD p).work := by
  cases X with
  | none => exact ⟨.refl _, rfl, rfl, rfl, rfl, rfl⟩
  | some P => exact h.work

theorem shares_of_same {P : Pass} (h : p.work.Same μ P.work) : Shares p P :=
  ⟨h.blocks, h.exits, h.continues, h.operators, h.target⟩

/-- Looking at what is open. -/
theorem parallel_shared {f F : Pass → Compile α}
    (h : ∀ p P, Shares p P → Parallel μ V (f p) (F P)) :
    Parallel μ V (get >>= f) (get >>= F) :=
  fun p X hX => paired_get (h p _ (shares_of_same (same_of_partner hX)) p X hX)

theorem topBlock_parallel : Parallel μ V topBlock topBlock := by
  refine parallel_shared fun p P h => ?_
  rw [h.blocks]
  exact together_pure _

theorem modifyBlocks_parallel (f : BlockStack → BlockStack) :
    Parallel μ V (modifyBlocks f) (modifyBlocks f) :=
  parallel_modify (fun _ => rfl) fun _ _ h => { h with blocks := congrArg f h.blocks }

theorem operators_parallel (ops : List Operator) :
    Parallel μ V (modify fun p => { p with operators := ops })
      (modify fun p => { p with operators := ops }) :=
  parallel_modify (fun _ => rfl) fun _ _ h => { h with operators := rfl }

/-! ## Functions -/

theorem function?_same {P Q : Program} (h : μ.Same Program.unlined P Q) (id : Nat) :
    (P.function? id = none ∧ Q.function? id = none) ∨
      ∃ f F, P.function? id = some f ∧ Q.function? id = some F ∧
        μ.Same Function.unlined f F := by
  have hunlined : (Q.function? id).map Function.unlined =
      (P.function? id).map Function.unlined := by
    rw [← Program.function?_unlined, h.forgets, Program.function?_unlined]
  cases hf : P.function? id with
  | none =>
    rw [hf, Option.map_none, Option.map_eq_none_iff] at hunlined
    exact .inl ⟨rfl, hunlined⟩
  | some f =>
    rw [hf, Option.map_some, Option.map_eq_some_iff] at hunlined
    obtain ⟨F, hF, heq⟩ := hunlined
    refine .inr ⟨f, F, rfl, hF, heq, fun hμ => ?_⟩
    rw [h.eq hμ, hf, Option.some.injEq] at hF
    exact hF.symm

/-- Looking at the function that receives code. -/
theorem paired_function {f F : Function → Compile α} (h : p.Partner (Beside μ V (Work.Same μ)) X)
    (hf : ∀ g G, p.program.function? p.target = some g → μ.Same Function.unlined g G →
      Paired μ (f g) p (F G) X T) : Paired μ (function >>= f) p (function >>= F) X T := by
  have hsame := same_of_partner h
  have htarget : (X.getD p).target = p.target := hsame.target
  unfold function
  simp only [bind_assoc]
  refine paired_get ?_
  rw [htarget]
  rcases function?_same hsame.program p.target with ⟨hnone, hNone⟩ | ⟨g, G, hg, hG, hgG⟩
  · rw [show p.program.function? p.target = none from hnone,
      show (X.getD p).program.function? p.target = none from hNone]
    exact paired_throw _
  · rw [show p.program.function? p.target = some g from hg,
      show (X.getD p).program.function? p.target = some G from hG]
    exact hf g G hg hgG

theorem parallel_function {f F : Function → Compile α}
    (h : ∀ g G, μ.Same Function.unlined g G → Parallel μ V (f g) (F G)) :
    Parallel μ V (function >>= f) (function >>= F) :=
  fun p X hX => paired_function hX fun g G _ hgG => h g G hgG p X hX

/-- The same change of the same function. -/
theorem same_modifyFunction {P Q : Program} (h : μ.Same Program.unlined P Q)
    (hchange : ∀ f F, μ.Same Function.unlined f F → μ.Same Function.unlined (change f) (CHANGE F))
    (id : Nat) : μ.Same Program.unlined (P.modifyFunction change id) (Q.modifyFunction CHANGE id) := by
  by_cases hμ : μ = .strict
  · refine ⟨Program.unlined_modifyFunction h.forgets (fun f F hF => ?_) id, absurd hμ⟩
    exact (hchange f F ⟨hF, absurd hμ⟩).forgets
  · have hfun : CHANGE = change := funext fun f => (hchange f f (.refl f)).eq hμ
    rw [h.eq hμ, hfun]
    exact .refl _

/-- The program changes, and nothing else. -/
theorem partner_program {A B : Program} (h : p.Partner (Beside μ V (Work.Same μ)) X)
    (hAB : μ.Same Program.unlined A B) :
    Partner (fun q Q => () = () ∧ q.Beside μ V (Work.Same μ) Q) { p with program := A }
      (X.map fun P => { P with program := B }) := by
  cases X with
  | none => exact h
  | some P => exact ⟨rfl, h.spot, h.line, { h.work with program := hAB }⟩

theorem parallel_putFunction (h : μ.Same Function.unlined f F) :
    Parallel μ V (putFunction f) (putFunction F) := by
  intro p X hX
  have hsame := same_of_partner hX
  have htarget : (X.getD p).target = p.target := hsame.target
  have hprogram : μ.Same Program.unlined (p.program.modifyFunction (fun _ => f) p.target)
      ((X.getD p).program.modifyFunction (fun _ => F) (X.getD p).target) := by
    rw [htarget]
    exact same_modifyFunction hsame.program (fun _ _ _ => h) p.target
  have hq := partner_program hX hprogram
  cases X <;> exact hq

theorem paired_modifyFunction (h : p.Partner (Beside μ V (Work.Same μ)) X)
    (hchange : ∀ f F, μ.Same Function.unlined f F → μ.Same Function.unlined (change f) (CHANGE F)) :
    Paired μ (modifyFunction change) p (modifyFunction CHANGE) X fun a b q Q =>
      b = a ∧ q.Beside μ V (Work.Same μ) Q := by
  have hsame := same_of_partner h
  have htarget : (X.getD p).target = p.target := hsame.target
  have hunlined : (X.getD p).program.unlined = p.program.unlined := hsame.program.forgets
  have hhas : (X.getD p).program.hasFunction (X.getD p).target =
      p.program.hasFunction p.target := by
    rw [htarget, ← Program.hasFunction_unlined, hunlined, Program.hasFunction_unlined]
  have hprogram : μ.Same Program.unlined (p.program.modifyFunction change p.target)
      ((X.getD p).program.modifyFunction CHANGE (X.getD p).target) := by
    rw [htarget]
    exact same_modifyFunction hsame.program hchange p.target
  have hq := partner_program h hprogram
  unfold modifyFunction
  refine paired_get ?_
  rw [hhas]
  split
  · refine paired_set ?_
    cases X <;> exact hq
  · rw [htarget]
    exact paired_throw _

theorem modifyFunction_parallel
    (hchange : ∀ f F, F.unlined = f.unlined → (change F).unlined = (change f).unlined) :
    Parallel μ V (modifyFunction change) (modifyFunction change) := by
  refine fun p X h => paired_modifyFunction h fun f F hF => ⟨hchange f F hF.forgets, fun hμ => ?_⟩
  rw [hF.eq hμ]

/-! ## Writing code -/

theorem same_write (h : μ.Same Function.unlined f F) (op : Opcode) (operands : List Nat)
    {line LINE : Nat} (hline : μ = .strict ∨ LINE = line) :
    μ.Same Function.unlined { f with code := f.code.write op operands line }
      { F with code := F.code.write op operands LINE } where
  forgets := by
    have hF := h.forgets
    simp only [Function.unlined, Function.mk.injEq, Code.unlined_write] at hF ⊢
    simp [hF]
  eq hμ := by rw [h.eq hμ, hline.resolve_left hμ]

theorem emitWith_parallel (op : Opcode) (operands : List Nat) :
    Parallel μ V (emitWith op operands) (emitWith op operands) := by
  intro p X h
  refine paired_get (paired_modifyFunction h fun f F hF => same_write hF op operands ?_)
  cases X with
  | none => exact .inr rfl
  | some P => exact h.line.imp_right fun ht => by rw [Option.getD_some, ht]

theorem emit_parallel (op : Opcode) : Parallel μ V (emit op) (emit op) := emitWith_parallel op []

theorem emitJump_parallel (label : Nat) : Parallel μ V (emitJump label) (emitJump label) :=
  emitWith_parallel _ _

/-! ## Labels -/

theorem same_labels (h : μ.Same Function.unlined f F) : F.labels = f.labels :=
  h.map_eq (g := Function.labels) fun _ => rfl

theorem size_same (h : μ.Same Function.unlined f F) : F.code.size = f.code.size :=
  h.map_eq (g := fun f => f.code.size) fun f => f.code.size_unlined

theorem same_setLabels (h : μ.Same Function.unlined f F) (labels : LabelTable) :
    μ.Same Function.unlined { f with labels := labels } { F with labels := labels } where
  forgets := by
    have hF := h.forgets
    simp only [Function.unlined, Function.mk.injEq] at hF ⊢
    simp [hF]
  eq hμ := by rw [h.eq hμ]

/-- The rest of `resolveExit`, where the label is known. -/
theorem resolveLabel_parallel (label : Nat) :
    Parallel μ V
      (do
        let f ← function
        match f.labels.resolve label f.code.size with
        | .ok labels => putFunction { f with labels := labels }
        | .error fault => throw (.fault (.label fault)))
      (do
        let f ← function
        match f.labels.resolve label f.code.size with
        | .ok labels => putFunction { f with labels := labels }
        | .error fault => throw (.fault (.label fault))) := by
  refine parallel_function fun f F h => ?_
  rw [same_labels h, size_same h]
  split
  · exact parallel_putFunction (same_setLabels h _)
  · exact together_throw _

theorem resolveExit_parallel : Parallel μ V resolveExit resolveExit := by
  intro p X h
  have hexits : (X.getD p).exits = p.exits := (same_of_partner h).exits
  refine paired_get ?_
  rw [hexits]
  cases p.exits with
  | nil => exact together_pure () p X h
  | cons exit exits =>
    have hset : Paired μ (set { p with exits := exits }) p (set { X.getD p with exits := exits }) X
        fun a b q Q => b = a ∧ q.Beside μ V (Work.Same μ) Q := by
      cases X with
      | none => exact h
      | some P => exact ⟨rfl, h.spot, h.line, { h.work with exits := rfl }⟩
    exact hset.seq fun _ q Y hq => resolveLabel_parallel exit.label q Y hq

/-! ## Tables -/

/-- Entering a name or a constant. -/
theorem intern_parallel {f : Program → Except Diagnostic (Nat × Program)}
    (hf : Program.Interns f f) : Parallel μ V (intern f) (intern f) := by
  intro p X h
  have hsame := same_of_partner h
  have hunlined : (X.getD p).program.unlined = p.program.unlined := hsame.program.forgets
  refine paired_get ?_
  cases hp : f p.program with
  | error d =>
    cases hP : f (X.getD p).program with
    | error d' =>
      cases X with
      | none => trivial
      | some P =>
        by_cases hμ : μ = .strict
        · exact .inl hμ
        · rw [show (Option.getD (some P) p).program = p.program from hsame.program.eq hμ, hp] at hP
          cases hP
          exact .inr rfl
    | ok r =>
      -- what is entered in one of the programs can be entered in the other
      obtain ⟨Q', hQ', -⟩ := hf hunlined.symm hP
      rw [hp] at hQ'
      cases hQ'
  | ok r =>
    obtain ⟨i, A⟩ := r
    obtain ⟨Q', hQ', heq⟩ := hf hunlined hp
    rw [hQ']
    have hprogram : μ.Same Program.unlined A Q' := by
      refine ⟨heq, fun hμ => ?_⟩
      rw [show (X.getD p).program = p.program from hsame.program.eq hμ, hp] at hQ'
      cases hQ'
      rfl
    have hq := partner_program h hprogram
    cases X with
    | none => exact hq
    | some P => exact ⟨rfl, hq.2⟩

/-! ## Tokens -/

section Tokens

variable {auto quit : Bool} {cause : Cause} {T : α → α → Pass → Pass → Prop}

/-- Both passes look at the same token. -/
structure Sees (p P : Pass) : Prop where
  token : P.token = p.token
  previous : P.previous = p.previous
  autoAllowed : P.autoAllowed = p.autoAllowed

/-- Both passes look at the same token, and the same is open. -/
structure Looks (p P : Pass) : Prop extends Sees p P, Shares p P

theorem sees_of_partner (h : p.Partner (Beside μ (Spot.Abreast μ auto quit) S) X) :
    Sees p (X.getD p) := by
  cases X with
  | none => exact ⟨rfl, rfl, rfl⟩
  | some P =>
    have hauto := h.spot.auto
    exact ⟨h.spot.token, h.spot.previous, hauto.2.trans hauto.1.symm⟩

theorem abreast_get {f F : Pass → Compile α}
    (h : ∀ p P, Sees p P → Abreast μ auto quit S (f p) (F P)) :
    Abreast μ auto quit S (get >>= f) (get >>= F) :=
  fun p X hX => paired_get (h p _ (sees_of_partner hX) p X hX)

theorem lockstep_get {f F : Pass → Compile α}
    (h : ∀ p P, Looks p P → Lockstep μ auto quit (f p) (F P)) :
    Lockstep μ auto quit (get >>= f) (get >>= F) :=
  fun p X hX =>
    paired_get (h p _ ⟨sees_of_partner hX, shares_of_same (same_of_partner hX)⟩ p X hX)

theorem kind_abreast : Abreast μ auto quit S kind kind := by
  refine abreast_get fun p P h => ?_
  rw [h.token]
  exact together_pure _

theorem here_abreast : Abreast μ auto quit S here here := by
  refine abreast_get fun p P h => ?_
  rw [h.token]
  exact together_pure _

theorem isAt_abreast (k : Token.Kind) : Abreast μ auto quit S (isAt k) (isAt k) := by
  refine abreast_get fun p P h => ?_
  rw [h.token]
  exact together_pure _

theorem atDelimiter_lockstep : Lockstep μ auto quit atDelimiter atDelimiter := by
  refine lockstep_get fun p P h => ?_
  rw [isDelimited, isDelimited, h.token, h.previous, h.blocks]
  exact together_pure _

theorem refuse_together {span : Span} {name : Option String} :
    Together μ V S (refuse cause span name : Compile α) (refuse cause span name) := together_throw _

theorem paired_refuseHere (h : p.Partner (Beside μ (Spot.Abreast μ auto quit) S) X) :
    Paired μ (refuseHere cause) p (refuseHere cause) X T := by
  refine paired_get ?_
  rw [(sees_of_partner h).token]
  exact paired_throw _

theorem refuseHere_abreast : Abreast μ auto quit S (refuseHere cause : Compile α) (refuseHere cause) :=
  fun _ _ h => paired_refuseHere h

theorem paired_unexpected (h : p.Partner (Beside μ (Spot.Abreast μ auto quit) S) X) :
    Paired μ unexpected p unexpected X T := by
  refine paired_get ?_
  rw [(sees_of_partner h).token]
  dsimp only
  split <;> exact paired_throw _

theorem unexpected_abreast : Abreast μ auto quit S (unexpected : Compile α) unexpected :=
  fun _ _ h => paired_unexpected h

/-- What POSIX does not have is refused by a strict pass, and the first pass has a warning. -/
theorem report_abreast (v : Violation) (span : Span) :
    Abreast μ auto quit S (report v span) (report v span) := by
  intro p X h
  refine paired_get ?_
  cases X with
  | none =>
    cases p.strictness with
    | lenient => exact h
    | warn => exact List.append_ne_nil_of_right_ne_nil _ (List.cons_ne_nil _ _)
    | strict => trivial
  | some P =>
    have hspot := h.spot
    rw [show p.strictness = .warn from hspot.warn,
      show (Option.getD (some P) p).strictness = μ from hspot.mode]
    cases μ with
    | lenient => exact ⟨rfl, { hspot with clean := nofun }, h.line, h.work⟩
    | warn => exact ⟨rfl, { hspot with clean := nofun }, h.line, h.work⟩
    | strict =>
      exact ⟨rfl, .inl (List.append_ne_nil_of_right_ne_nil _ (List.cons_ne_nil _ _))⟩

/-- **The next token.** Where a strict pass is refused the token has a warning. -/
theorem advance_abreast : Abreast μ auto quit S advance advance := by
  intro p X h
  refine paired_get ?_
  cases X with
  | none =>
    have hmoved (us : List Diagnostic) : p.warnings ++ us ≠ [] :=
      List.append_ne_nil_of_left_ne_nil h us
    cases p.upcoming with
    | nil => exact h
    | cons r rs =>
      obtain ⟨token, warnings, error⟩ := r
      cases error with
      | none => exact hmoved _
      | some n => trivial
  | some P =>
    have hspot := h.spot
    have hupcoming := hspot.upcoming
    have hclean := hspot.clean
    change Reading.Abreast μ p.upcoming P.upcoming at hupcoming
    rw [Option.getD_some]
    generalize p.upcoming = us, P.upcoming = Us at hupcoming
    cases hupcoming with
    | nil =>
      exact ⟨rfl, beside_of ⟨hspot.warn, hspot.mode, hspot.auto, hspot.quit, hspot.token,
        congrArg Token.kind hspot.token, .nil, hclean⟩ h.work⟩
    | @cons r R rs Rs token error clean rest =>
      have hq : Pass.Beside μ (Spot.Abreast μ auto quit) S
          { p with
            previous := p.token.kind
            token := r.token
            upcoming := rs
            warnings := p.warnings ++ r.warnings.map Notice.toDiagnostic }
          { P with
            previous := P.token.kind
            token := R.token
            upcoming := Rs
            warnings := P.warnings ++ R.warnings.map Notice.toDiagnostic } := by
        refine beside_of ⟨hspot.warn, hspot.mode, hspot.auto, hspot.quit, token,
          congrArg Token.kind hspot.token, rest, fun hμ => ⟨?_, (clean hμ).2⟩⟩ h.work
        change p.warnings ++ _ = []
        rw [show p.warnings = [] from (hclean hμ).1, (clean hμ).1]
        rfl
      obtain ⟨_, _, e⟩ := r
      obtain ⟨_, _, E⟩ := R
      cases (error : E = e)
      cases e with
      | none => exact ⟨rfl, hq⟩
      | some n => exact .inr rfl
    | @refused r R rs Rs mode warned error =>
      obtain ⟨_, _, e⟩ := r
      obtain ⟨_, _, E⟩ := R
      cases E with
      | none => cases error
      | some n =>
        cases e with
        | none =>
          refine ⟨mode, .inl ?_⟩
          exact List.append_ne_nil_of_right_ne_nil _ (by simpa using warned)
        | some n' => exact .inl mode

/-! ## Loops over the tokens -/

theorem abreast_perToken {step STEP : α → Compile (α ⊕ β)}
    (hstep : ∀ a, Abreast μ auto quit S (step a) (STEP a)) (a : α) :
    Abreast μ auto quit S (perToken step a) (perToken STEP a) := by
  intro p X hX
  refine paired_get (together_iterate hstep p.upcoming (X.getD p).upcoming (fun hμ => ?_) a p X hX)
  cases X with
  | none => rfl
  | some P => exact hX.spot.upcoming.length_eq hμ

theorem skipWhile_abreast (f : Token.Kind → Bool) :
    Abreast μ auto quit S (skipWhile f) (skipWhile f) := by
  refine abreast_perToken (fun _ => kind_abreast.bind fun k => together_ite ?_ ?_) ()
  · exact advance_abreast.bind fun _ => together_pure _
  · exact together_pure _

theorem skipNewlines_abreast : Abreast μ auto quit S skipNewlines skipNewlines :=
  skipWhile_abreast _

end Tokens

end Compile

end DeskCalc
