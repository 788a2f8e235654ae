import DeskCalc.Proofs.Strictness.Closing

/-!
# A pass that lags behind a strict one

Where a strict pass ends an `if` the first pass waits for an `else`. `Work.Lags` says that this is
all the difference: each `settleIf` at a quiet token ends one such `if`, and in the end the works
are the same. `lags_of_due` is how a lag comes about, and `endBody_paired` says that the end of a
body leaves nothing worse.
-/

namespace DeskCalc

/-- The work of a first pass is the same as that of a strict pass, or becomes so when each `if` that
waits for its `else` is settled. -/
inductive Work.Lags (W : Work) : Work → Prop
  | level {w : Work} (same : w.Same .strict W) : W.Lags w
  | behind {w : Work} (ended : w.blocks.top.ifEnded = true)
      (brace : W.blocks.hasBrace = w.blocks.hasBrace) (depth : W.blocks.depth ≤ w.blocks.depth)
      (settles : ∀ p : Pass, p.work = w → p.spot.Quiet .warn →
        Compile.Ensures Compile.settleIf p
          (fun _ q => q.spot = p.spot ∧
            (1 < w.blocks.depth → w.blocks.top.brace = false →
              q.blocks.depth < w.blocks.depth))
          fun e _ => ¬e.IsRefusal)
      (next : ∀ p q : Pass, p.work = w → p.spot.Quiet .warn →
        Compile.settleIf p = .ok () q → W.Lags q.work) :
      W.Lags w

theorem Work.Lags.depth_le {w W : Work} (h : W.Lags w) : W.blocks.depth ≤ w.blocks.depth := by
  cases h with
  | level same => rw [same.blocks]
  | behind _ _ depth => exact depth

namespace Pass

/-- A strict pass at the same token has ended the `if` that the first pass waits with. Less than `d`
blocks are open. -/
structure Behind (auto : Bool) (d : Nat) (p P : Pass) : Prop where
  spot : p.spot.Past auto false P.spot
  ended : p.blocks.top.ifEnded = true
  lags : P.work.Lags p.work
  lt : p.blocks.depth < d

/-- Two passes at the same token, of which the first may lag behind. -/
def Lag (μ : Strictness) (auto quit : Bool) (d : Nat) (p P : Pass) : Prop :=
  p.Level μ auto quit P ∨ μ = .strict ∧ p.Behind auto d P

/-- The first pass closes the bodies that have been closed on the way from `P` to `Q`, or some of
them. -/
def Trails (P Q : Pass) : Prop :=
  ∀ (p : Pass) (bound : List Block), p.Beside .strict Spot.BothQuiet (Work.Same .strict) P →
    Compile.Accepts (Compile.iterate Compile.closeOne bound ⟨false, false⟩) p
      fun _ q => Q.work.Lags q.work

/-- What the strict pass does when an `if` has ended comes to `Q`. -/
inductive Finishes (P : Pass) : Pass → Prop
  | stays (bare : ¬P.blocks.Bare) : P.Finishes P
  | closes {Q : Pass} (bare : P.blocks.Bare) (trails : P.Trails Q)
      (brace : Q.blocks.hasBrace = P.blocks.hasBrace) (depth : Q.blocks.depth ≤ P.blocks.depth) :
      P.Finishes Q

variable {p P Q : Pass}

theorem Behind.mono {auto : Bool} {d d' : Nat} (h : p.Behind auto d P) (hd : d ≤ d') :
    p.Behind auto d' P :=
  { h with lt := Nat.lt_of_lt_of_le h.lt hd }

theorem Finishes.hasBrace_eq (h : P.Finishes Q) : Q.blocks.hasBrace = P.blocks.hasBrace := by
  cases h with
  | stays => rfl
  | closes _ _ brace => exact brace

theorem Finishes.depth_le (h : P.Finishes Q) : Q.blocks.depth ≤ P.blocks.depth := by
  cases h with
  | stays => exact Nat.le_refl _
  | closes _ _ _ depth => exact depth

end Pass

namespace Compile

open Pass

variable {α β γ : Type} {μ : Strictness} {auto quit : Bool} {p P Q : Pass} {X : Option Pass}
  {P' : Pass}

/-! ## Settling an `if` -/

/-- The end of a body that ends with its statement. -/
theorem endBody_of_bare {R : Unit → Pass → Prop} {E : Stop → Pass → Prop} (hbare : p.blocks.Bare)
    (h : Ensures (iterate closeOne p.blocks.toList ⟨false, false⟩) p
      (fun unused q => unused = false ∧ R () q) E) : Ensures (endBody false) p R E := by
  have hdepth := hbare.depth
  simp only [endBody, closeBehind, closeBodies, ensures_bind, ensures_get, ensures_ite, hbare.brace,
    if_neg (Nat.not_le_of_lt hdepth), Bool.false_eq_true, if_false]
  refine h.imp ?_
  rintro _ q ⟨rfl, hq⟩
  simpa using hq

section

variable (hdue : p.Beside .strict Spot.BothQuiet (Work.Due .strict) P') (hend : endIf P' = .ok () P)
  (hQ : P.Finishes Q)
include hdue hend hQ

/-- **Settling an `if` that is due.** -/
theorem settleIf_lags : Ensures settleIf p
      (fun _ q => Q.work.Lags q.work ∧ q.spot = p.spot ∧
        (1 < p.blocks.depth → p.blocks.top.brace = false → q.blocks.depth < p.blocks.depth))
      fun e _ => ¬e.IsRefusal := by
  have hended := (endIf_due (X := some P') hdue).ensures hend
  refine (hended.and endIf_blocks).bind ?_ fun _ _ h => h.1
  rintro _ r ⟨⟨-, hr⟩, hspot, hblocks⟩
  have hP : P.blocks = r.blocks := hr.work.blocks
  rw [ensures_bind, ensures_get]
  dsimp only
  split
  · next hcond =>
    simp only [Bool.and_eq_true, decide_eq_true_eq, Bool.not_eq_true'] at hcond
    have hbare : r.blocks.Bare := ⟨hcond.1, hcond.2, by rw [hblocks]; rfl⟩
    cases hQ with
    | stays hnot => exact absurd (hP ▸ hbare) hnot
    | closes _ htrails _ _ =>
      have hclosed := closeBodies_quiet r.blocks.toList hr.spot.left hbare
      refine endBody_of_bare hbare ((hclosed.and (htrails r _ hr)).mono ?_ fun _ _ h => h.1)
      rintro _ q ⟨⟨hunused, hq, -, hlt⟩, hlags⟩
      refine ⟨hunused, hlags, hq.trans hspot, fun _ _ => ?_⟩
      rw [hblocks] at hlt
      exact hlt
  · next hcond =>
    simp only [Bool.and_eq_true, decide_eq_true_eq, Bool.not_eq_true', not_and,
      Bool.not_eq_false] at hcond
    cases hQ with
    | stays _ =>
      refine ⟨.level hr.work, hspot, fun hdepth hbrace => ?_⟩
      rw [hblocks] at hcond
      exact absurd ((hcond hdepth).symm.trans hbrace) nofun
    | closes hbare _ _ _ =>
      rw [hP] at hbare
      exact absurd (hcond hbare.depth) (by simp [hbare.brace])

/-- **How a lag comes about.** The first pass leaves a mark where the strict pass ends an `if`, and
maybe the bodies around it. -/
theorem lags_of_due : Q.work.Lags p.work := by
  have hp : p.blocks = P'.blocks.setEnded true := hdue.work.blocks
  have hP : P.blocks = P'.blocks.setEnded false := (endIf_blocks.ok hend).2
  have hsettles (p' : Pass) (hwork : p'.work = p.work) (hquiet : p'.spot.Quiet .warn) :=
    settleIf_lags (p := p') ⟨⟨hquiet, hdue.spot.right⟩, .inl rfl, hwork ▸ hdue.work⟩ hend hQ
  refine .behind ?_ ?_ ?_ (fun p' hwork hquiet => ?_) fun p' q hwork hquiet hq => ?_
  · exact congrArg (·.top.ifEnded) hp
  · change Q.blocks.hasBrace = p.blocks.hasBrace
    rw [hQ.hasBrace_eq, hp, hP]
    rfl
  · change Q.blocks.depth ≤ p.blocks.depth
    have hle := hQ.depth_le
    rw [hP] at hle
    rw [hp]
    exact hle
  · refine (hsettles p' hwork hquiet).imp fun _ q hq => ⟨hq.2.1, ?_⟩
    rw [← hwork]
    exact hq.2.2
  · exact ((hsettles p' hwork hquiet).ok hq).1

end

/-! ## Bodies that end with their statement -/

/-- One body on the way of the strict pass. -/
theorem trails_step {R : Closing ⊕ Bool} (hbare : P.blocks.Bare)
    (hP : closeOne ⟨false, false⟩ P = .ok R Q) {Q' : Pass} (hQ : Q.Finishes Q') :
    P.Trails Q' := by
  intro p bound h
  have hblocks : P.blocks = p.blocks := h.work.blocks
  have hstep : Accepts (closeOne ⟨false, false⟩) p fun r q =>
      r.elim (fun c => c = ⟨false, false⟩ ∧ ∀ bound : List Block,
          Accepts (iterate closeOne bound ⟨false, false⟩) q fun _ q => Q'.work.Lags q.work)
        fun _ => Q'.work.Lags q.work := by
    have hdepth : 1 < p.blocks.depth := hblocks ▸ hbare.depth
    have hpair := (closeOne_paired looking_quiet ⟨false, false⟩ (X := some P) h hdepth).ensures hP
    refine (hpair.and (closeOne_quiet h.spot.left (hblocks ▸ hbare))).mono ?_ fun _ _ _ => trivial
    rintro r q ⟨hcloses, -, -, hr⟩
    cases hcloses with
    | both hbeside _ _ =>
      have hq : Q.blocks = q.blocks := hbeside.work.blocks
      rcases ending_cases q.blocks with ⟨hbare', hend⟩ | ⟨hbare', hend⟩ <;>
        rw [hr, hend]
      · cases hQ with
        | stays hnot => exact absurd (hq ▸ hbare') hnot
        | closes _ htrails _ _ => exact ⟨rfl, fun bound => htrails q bound hbeside⟩
      · cases hQ with
        | stays _ => exact .level hbeside.work
        | closes hQ _ _ _ => exact absurd (hq ▸ hQ) hbare'
    | waits hdue hend _ => exact lags_of_due hdue hend hQ
  cases bound with
  | nil =>
    rw [iterate]
    refine hstep.bind ?_ fun _ _ => id
    rintro (c | _) q hq
    · trivial
    · exact hq
  | cons b bound =>
    rw [iterate]
    refine hstep.bind ?_ fun _ _ => id
    rintro (c | _) q hq
    · obtain ⟨rfl, hq⟩ := hq
      exact hq bound
    · exact hq

/-- **The way of the strict pass.** -/
theorem trails_closeBodies (bound : List γ) (h : P.spot.Quiet .strict) (hbare : P.blocks.Bare) :
    Accepts (iterate closeOne bound ⟨false, false⟩) P fun _ Q => P.Trails Q := by
  induction bound generalizing P with
  | nil =>
    rw [iterate]
    refine ((ensures_self _).and (closeOne_quiet h hbare)).bind ?_ fun _ _ _ => trivial
    rintro R Q ⟨hP, -, -, hR⟩
    rcases ending_cases Q.blocks with ⟨-, hend⟩ | ⟨hnot, hend⟩ <;> rw [hR, hend]
    · trivial
    · exact trails_step hbare hP (.stays hnot)
  | cons b bound ih =>
    rw [iterate]
    refine ((ensures_self _).and (closeOne_quiet h hbare)).bind ?_ fun _ _ _ => trivial
    rintro R Q ⟨hP, hspot, -, hR⟩
    rcases ending_cases Q.blocks with ⟨hQ, hend⟩ | ⟨hnot, hend⟩ <;> rw [hR, hend]
    · have hclosed := closeBodies_quiet bound (hspot ▸ h) hQ
      refine ((ih (hspot ▸ h) hQ).and hclosed).mono ?_ fun _ _ _ => trivial
      rintro _ Q' ⟨htrails, -, -, hbrace, hlt⟩
      exact trails_step hbare hP (.closes hQ htrails hbrace (Nat.le_of_lt hlt))
    · exact trails_step hbare hP (.stays hnot)

/-! ## The end of bodies -/

/-- The first pass waits with an `if` that the second one has ended. -/
theorem behind_of_due {d : Nat}
    (hdue : p.Beside .strict (Spot.Past auto false) (Work.Due .strict) P')
    (hend : endIf P' = .ok () P) (hQ : P.Finishes Q) (hspot : Q.spot = P.spot)
    (hlt : p.blocks.depth < d) : p.Behind auto d Q := by
  have hquiet : p.Beside .strict Spot.BothQuiet (Work.Due .strict) P' :=
    ⟨hdue.spot.quiet, hdue.line, hdue.work⟩
  refine ⟨?_, ?_, lags_of_due hquiet hend hQ, hlt⟩
  · rw [hspot, (endIf_blocks.ok hend).1]
    exact hdue.spot
  · exact congrArg (·.top.ifEnded) hdue.work.blocks

/-- What comes of closing all bodies that end. -/
def EndsBodies (auto : Bool) (d : Nat) (unused unused' : Bool) (q Q : Pass) : Prop :=
  unused' = unused ∧ q.Level .strict auto false Q ∨
    unused = false ∧ unused' = false ∧ q.Behind auto d Q

theorem EndsBodies.mono {d d' : Nat} {a b : Bool} (h : EndsBodies auto d a b p P) (hd : d ≤ d') :
    EndsBodies auto d' a b p P :=
  h.imp_right fun h => ⟨h.1, h.2.1, h.2.2.mono hd⟩

/-- The strict pass goes on where the first one waits. -/
theorem endsBodies_of_waits {d : Nat} {M : Compile Bool}
    (hdue : p.Beside .strict (Spot.Past auto false) (Work.Due .strict) P')
    (hend : endIf P' = .ok () P) (hlt : p.blocks.depth < d)
    (hM : Ensures M P (fun unused Q => unused = false ∧ Q.spot = P.spot ∧ P.Finishes Q)
      fun e _ => ¬e.IsRefusal) : Paired .strict (pure false) p M (some P) (EndsBodies auto d) := by
  change Agrees _ _ (.ok false p) (M P)
  cases hQ : M P with
  | ok unused Q =>
    obtain ⟨rfl, hspot, hfinishes⟩ := hM.ok hQ
    exact .inr ⟨rfl, rfl, behind_of_due hdue hend hfinishes hspot hlt⟩
  | error e Q => exact ⟨rfl, .inr (hM.error hQ)⟩

theorem closeLoop_paired (bound : List γ) (c : Closing)
    (h : p.Partner (Level .strict auto false) X) (hdepth : 1 < p.blocks.depth) :
    Paired .strict (iterate closeOne bound c) p (iterate closeOne bound c) X
      (EndsBodies auto p.blocks.depth) := by
  induction bound generalizing c p X with
  | nil =>
    refine (closeOne_paired (looking_abreast auto false) c h hdepth).bind fun r R q Y hq => ?_
    cases Y with
    | none =>
      cases r with
      | inl _ => trivial
      | inr _ => exact hq
    | some Q =>
      cases hq with
      | both hbeside hle hinner =>
        cases r with
        | inl _ => exact paired_throw _
        | inr _ => exact .inl ⟨rfl, hbeside⟩
      | waits hdue hend hlt =>
        refine endsBodies_of_waits hdue hend hlt ?_
        rcases ending_cases Q.blocks with ⟨hbare, hR⟩ | ⟨hbare, hR⟩ <;> rw [hR]
        · exact not_isRefusal_fault _
        · exact ⟨rfl, rfl, .stays hbare⟩
  | cons b bound ih =>
    refine (closeOne_paired (looking_abreast auto false) c h hdepth).bind fun r R q Y hq => ?_
    cases Y with
    | none =>
      cases r with
      | inl c' =>
        exact paired_none (together_iterate (closeOne_lockstep Strictness.warn_ne_strict) bound
          bound (fun _ => rfl) c') hq
      | inr _ => exact hq
    | some Q =>
      cases hq with
      | both hbeside hle hinner =>
        cases r with
        | inl c' =>
          exact (ih c' (X := some Q) hbeside (hinner c' rfl)).mono fun _ _ _ _ h => h.mono hle
        | inr _ => exact .inl ⟨rfl, hbeside⟩
      | waits hdue hend hlt =>
        refine endsBodies_of_waits hdue hend hlt ?_
        rcases ending_cases Q.blocks with ⟨hbare, hR⟩ | ⟨hbare, hR⟩ <;> rw [hR]
        · have hquiet : Q.spot.Quiet .strict := by
            rw [(endIf_blocks.ok hend).1]
            exact hdue.spot.quiet.right
          refine ((closeBodies_quiet bound hquiet hbare).and
            (trails_closeBodies bound hquiet hbare)).mono ?_ fun _ _ h => h.1
          rintro _ Q' ⟨⟨hunused, hspot, hbrace, hlt⟩, htrails⟩
          exact ⟨hunused, hspot, .closes hbare htrails hbrace (Nat.le_of_lt hlt)⟩
        · exact ⟨rfl, rfl, .stays hbare⟩

theorem closeBehind_paired {brace : Bool} (h : p.Partner (Level .strict auto false) X)
    (hdepth : 1 < p.blocks.depth) :
    Paired .strict (closeBehind brace) p (closeBehind brace) X fun _ _ q Q =>
      q.Lag .strict auto false p.blocks.depth Q := by
  have hclose : Paired .strict (closeBodies brace) p (closeBodies brace) X
      (EndsBodies auto p.blocks.depth) := by
    refine paired_get ?_
    rw [show (X.getD p).blocks = p.blocks from (same_of_partner h).blocks]
    exact closeLoop_paired _ _ h hdepth
  refine hclose.bind fun unused unused' q Y hq => paired_get ?_
  cases Y with
  | none =>
    exact paired_none (together_ite unexpected_abreast (together_pure ())) hq
  | some Q =>
    rcases hq with ⟨rfl, hq⟩ | ⟨rfl, rfl, hq⟩
    · rw [Option.getD_some, show Q.blocks = q.blocks from hq.work.blocks]
      split
      · exact paired_unexpected (X := some Q) hq
      · exact .inl hq
    · simp only [Bool.and_false, Bool.false_eq_true, if_false]
      exact .inr ⟨rfl, hq⟩

theorem endBody_strict {brace : Bool} (h : p.Level .strict auto false P) :
    Paired .strict (endBody brace) p (endBody brace) (some P) fun _ _ q Q =>
      q.Lag .strict auto false p.blocks.depth Q := by
  rw [endBody]
  refine paired_get ?_
  rw [Option.getD_some, show P.blocks = p.blocks from h.work.blocks]
  split
  · exact paired_unexpected (X := some P) h
  · next hdepth =>
    dsimp only
    split
    · refine ((lockstep_of_fine fine_closingBrace p (some P) h).and_left closingBrace_blocks).bind
        fun _ _ q Y hq => ?_
      cases Y with
      | none =>
        exact paired_none (closeBehind_lockstep Strictness.warn_ne_strict brace) hq
      | some Q =>
        have hblocks : q.blocks = p.blocks := hq.2
        rw [← hblocks]
        exact closeBehind_paired (X := some Q) hq.1.2 (by rw [hblocks]; omega)
    · exact closeBehind_paired (X := some P) h (by omega)

/-- **The end of a body.** A strict pass may be ahead afterwards, with fewer blocks open. -/
theorem endBody_paired (brace : Bool) (h : p.Partner (Level μ auto false) X) :
    Paired μ (endBody brace) p (endBody brace) X fun _ _ q Q =>
      q.Lag μ auto false p.blocks.depth Q := by
  cases X with
  | none =>
    exact paired_none (endBody_lockstep Strictness.warn_ne_strict brace) h
  | some P =>
    by_cases hμ : μ = .strict
    · subst hμ
      exact endBody_strict h
    · exact (endBody_lockstep hμ brace p (some P) h).mono fun _ _ _ _ hq => .inl hq.2

theorem settleIf_paired (h : p.Partner (Level μ auto false) X) :
    Paired μ settleIf p settleIf X fun _ _ q Q => q.Lag μ auto false p.blocks.depth Q := by
  have hdepth : Accepts endIf p fun _ q => q.blocks.depth = p.blocks.depth :=
    endIf_blocks.mono (fun _ q hq => by rw [hq.2]; rfl) fun _ _ _ => trivial
  refine ((endIf_parallel p X h).and_left hdepth).bind fun _ _ q Y hq => ?_
  have hlevel : q.Partner (Level μ auto false) Y := by
    cases Y with
    | none => exact hq
    | some Q => exact hq.1.2
  refine paired_get ?_
  rw [show (Y.getD q).blocks = q.blocks from (same_of_partner hlevel).blocks]
  dsimp only
  split
  · cases Y with
    | none => exact endBody_paired (μ := μ) false hlevel
    | some Q =>
      rw [← hq.2]
      exact endBody_paired false hlevel
  · cases Y with
    | none => exact hq
    | some Q => exact .inl hq.1.2

end Compile

end DeskCalc
