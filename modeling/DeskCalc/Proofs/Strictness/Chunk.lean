import DeskCalc.Proofs.Chunks.Items
import DeskCalc.Proofs.Rollback
import DeskCalc.Proofs.Strictness.Items

/-!
# A chunk under two strictnesses

Before a definition and at the end of the input all that is open is closed, so that a pass that
lags behind a strict one catches up (`closeAll_paired`). Elsewhere it catches up with its next
items, while the strict pass stays where it is (`items_paired`).
-/

namespace DeskCalc

namespace Compile

open Pass

variable {α β γ : Type} {μ : Strictness} {S : Work → Work → Prop} {auto quit : Bool} {p P : Pass}
  {X : Option Pass} {d : Nat} {BOUND : List γ}

/-! ## No brace is opened -/

theorem brace_of_hasBrace {s : BlockStack} (h : s.hasBrace = false) : s.top.brace = false := by
  rw [BlockStack.hasBrace, BlockStack.toList, List.any_cons, Bool.or_eq_false_iff] at h
  exact h.1

theorem hasBrace_pop_eq_false {s : BlockStack} (h : s.hasBrace = false) :
    s.pop.hasBrace = false := by
  rw [BlockStack.hasBrace_pop (brace_of_hasBrace h), h]

/-- A strict pass that has no brace open. -/
structure Braceless (p : Pass) : Prop where
  strict : p.strictness = .strict
  hasBrace : p.blocks.hasBrace = false

theorem advance_braceless (h : Braceless p) : Accepts advance p fun _ q => Braceless q := by
  rw [Accepts, advance, ensures_bind, ensures_get]
  split
  · exact ⟨h.strict, h.hasBrace⟩
  · rw [ensures_bind, ensures_set]
    split
    · trivial
    · exact ⟨h.strict, h.hasBrace⟩

theorem skipNewlines_braceless (h : Braceless p) :
    Accepts skipNewlines p fun _ q => Braceless q := by
  refine accepts_perToken (fun _ q => Braceless q) (fun _ q hq => ?_) h
  simp only [skipStep, ensures_bind, ensures_kind, ensures_ite, ensures_pure]
  split
  · exact advance_braceless hq
  · exact hq

theorem closeIf_braceless (h : Braceless p) (outer : Bool) :
    Accepts (closeIf outer) p fun _ q => Braceless q := by
  refine (skipNewlines_braceless h).bind (f := fun _ => closeIfHere outer) (fun _ q hq => ?_)
    fun _ _ => id
  rw [Ensures, closeIfHere_of_strict hq.strict]
  refine Ensures.bind (p := { q with blocks := q.blocks.pop }) endIf_blocks (fun _ r hr => ?_)
    fun _ _ _ => trivial
  have hmode : r.strictness = q.strictness := congrArg Spot.strictness hr.1
  refine ⟨hmode.trans hq.strict, ?_⟩
  rw [hr.2]
  exact hasBrace_pop_eq_false hq.hasBrace

theorem closeOne_braceless (h : Braceless p) (c : Closing) :
    Accepts (closeOne c) p fun _ q => Braceless q := by
  have hnext (brace found : Bool) (q : Pass) (hq : Braceless q) :
      Accepts (closeNext brace found) q fun _ r => Braceless r :=
    ensures_of_ok (closeNext_eq brace found q) hq
  rw [Accepts, closeOne, ensures_ite]
  split
  · exact ensures_unexpected fun _ => trivial
  · rw [ensures_bind, ensures_get, ensures_bind]
    refine closeInnermost_changes.mono ?_ fun _ _ _ => trivial
    rintro _ q ⟨hworks, hblocks⟩
    have hmode : q.strictness = p.strictness := congrArg Spot.strictness (spot_of_works hworks)
    have hq : Braceless q := by
      refine ⟨hmode.trans h.strict, ?_⟩
      rcases hblocks with hblocks | ⟨hblocks, -⟩
      · exact hblocks ▸ hasBrace_pop_eq_false h.hasBrace
      · exact hblocks ▸ h.hasBrace
    rw [closeAround, ensures_bind, ensures_get]
    dsimp only
    split
    · exact (closeIf_braceless hq _).bind (fun found r hr => hnext _ found r hr) fun _ _ => id
    · exact hnext _ false q hq

theorem endBody_braceless (h : Braceless p) :
    Accepts (endBody false) p fun _ q => Braceless q := by
  rw [Accepts, endBody, ensures_bind, ensures_get, ensures_ite]
  split
  · exact ensures_unexpected fun _ => trivial
  · have hclose : Accepts (closeBodies false) p fun _ q => Braceless q := by
      rw [Accepts, closeBodies, ensures_bind, ensures_get]
      refine accepts_iterate (fun _ q => Braceless q) (fun c q hq => ?_) _ _ p h
      refine (closeOne_braceless hq c).imp ?_
      rintro (_ | _) r hr <;> exact hr
    refine hclose.bind (fun unused q hq => ?_) fun _ _ => id
    rw [ensures_bind, ensures_get, ensures_ite]
    split
    · exact ensures_unexpected fun _ => trivial
    · exact hq

/-! ## The end of all bodies -/

theorem closeAllBody_lockstep (hμ : μ ≠ .strict) (depth : Nat) :
    Lockstep μ auto quit (closeAllBody depth) (closeAllBody depth) := by
  refine together_ite ((endBody_lockstep hμ false).bind fun _ => ?_) (together_pure _)
  refine parallel_shared fun p P h => ?_
  rw [h.blocks]
  exact together_ite (together_pure _) (together_pure _)

theorem closeAllStep_lockstep (hμ : μ ≠ .strict) (u : Unit) :
    Lockstep μ auto quit (closeAllStep u) (closeAllStep u) := by
  refine parallel_shared fun p P h => ?_
  rw [h.blocks]
  refine together_ite ?_ (together_pure _)
  dsimp only
  split
  · exact endIf_parallel.bind fun _ => closeAllBody_lockstep hμ _
  · exact closeAllBody_lockstep hμ _

/-- What comes of one repetition of `closeAll`. -/
def ClosesMore (auto : Bool) (r R : Unit ⊕ Bool) (q Q : Pass) : Prop :=
  R = r ∧
    match r with
    | .inl _ => (∃ d, q.Lag .strict auto false d Q) ∧ Braceless Q
    | .inr _ => q.Level .strict auto false Q

theorem closeAllBody_paired (h : p.Level .strict auto false P) (hP : Braceless P) :
    Paired .strict (closeAllBody p.blocks.depth) p (closeAllBody p.blocks.depth) (some P)
      (ClosesMore auto) := by
  have hcheck (n : Nat) (q : Pass) :
      (do if (← get).blocks.depth ≥ n then pure (.inr false) else pure (.inl ()) :
        Compile (Unit ⊕ Bool)) q =
        .ok (if q.blocks.depth ≥ n then .inr false else .inl ()) q := by
    change (if q.blocks.depth ≥ n then _ else _ : Compile _) q = _
    split <;> rfl
  unfold closeAllBody
  split
  · refine ((endBody_paired (X := some P) false h).and_right (endBody_braceless hP)).bind
      fun _ _ q Y hq => ?_
    cases Y with
    | none =>
      rw [Paired, Ensures, hcheck]
      exact hq
    | some Q =>
      obtain ⟨hlag, hQ⟩ := hq
      rw [Paired, hcheck, hcheck]
      rcases hlag with hq | ⟨-, hq⟩
      · rw [show Q.blocks = q.blocks from hq.work.blocks]
        refine ⟨rfl, ?_⟩
        split
        · exact ⟨⟨0, .inl hq⟩, hQ⟩
        · exact hq
      · have hlt : Q.blocks.depth < p.blocks.depth := Nat.lt_of_le_of_lt hq.lags.depth_le hq.lt
        rw [if_neg (Nat.not_le_of_lt hq.lt), if_neg (Nat.not_le_of_lt hlt)]
        exact ⟨rfl, ⟨_, .inr ⟨rfl, hq⟩⟩, hQ⟩
  · exact ⟨rfl, ⟨0, .inl h⟩, hP⟩

theorem closeAllStep_eq (p : Pass) : closeAllStep () p =
    (if p.blocks.depth > 1 || p.blocks.top.ifEnded then
      if p.blocks.top.ifEnded then endIf >>= fun _ => closeAllBody p.blocks.depth
      else closeAllBody p.blocks.depth
    else pure (.inr p.blocks.isIdle) : Compile _) p := by
  change (if _ then _ else _ : Compile _) p = _
  split
  · split <;> rfl
  · rfl

theorem closeAllStep_paired (h : p.Level .strict auto false P) (hP : Braceless P) :
    Paired .strict (closeAllStep ()) p (closeAllStep ()) (some P) (ClosesMore auto) := by
  change Agrees _ _ (closeAllStep () p) (closeAllStep () P)
  rw [closeAllStep_eq, closeAllStep_eq, show P.blocks = p.blocks from h.work.blocks]
  split
  · split
    · have hended : Accepts endIf p fun _ q => q.blocks.depth = p.blocks.depth :=
        endIf_blocks.mono (fun _ q hq => by rw [hq.2]; rfl) fun _ _ _ => trivial
      have hEnded : Accepts endIf P fun _ Q => Braceless Q := by
        refine endIf_blocks.mono (fun _ Q hQ => ?_) fun _ _ _ => trivial
        have hmode : Q.strictness = P.strictness := congrArg Spot.strictness hQ.1
        exact ⟨hmode.trans hP.strict, by rw [hQ.2]; exact hP.hasBrace⟩
      refine (((endIf_parallel p (some P) h).and_left hended).and_right hEnded).bind
        (F := fun _ => closeAllBody p.blocks.depth) fun _ _ q Y hq => ?_
      cases Y with
      | none => exact paired_none (closeAllBody_lockstep Strictness.warn_ne_strict _) hq
      | some Q =>
        obtain ⟨⟨⟨-, hq⟩, hdepth⟩, hQ⟩ := hq
        rw [← hdepth]
        exact closeAllBody_paired hq hQ
    · exact closeAllBody_paired h hP
  · exact ⟨rfl, h⟩

/-- Where an `if` waits, `closeAll` settles it. -/
theorem closeAllStep_of_ended (hended : p.blocks.top.ifEnded = true)
    (hbrace : p.blocks.top.brace = false) :
    closeAllStep () p = (settleIf >>= fun _ => do
      if p.blocks.depth > 1 then
        if (← get).blocks.depth ≥ p.blocks.depth then pure (.inr false) else pure (.inl ())
      else pure (.inl ())) p := by
  rw [closeAllStep_eq, if_pos (by simp [hended]), if_pos hended, settleIf, bind_assoc]
  cases hend : endIf p with
  | error e q => simp only [Bind.bind, EStateM.bind, hend]
  | ok _ q =>
    have hq : q.blocks = p.blocks.setEnded false := (endIf_blocks.ok hend).2
    have hdepth : q.blocks.depth = p.blocks.depth := by
      rw [hq]
      rfl
    have htop : q.blocks.top.brace = false := by
      rw [hq]
      exact hbrace
    rw [bind_of_ok hend, bind_of_ok hend]
    change closeAllBody _ q = ((if q.blocks.depth > 1 && !q.blocks.top.brace then endBody false
      else pure ()) >>= _) q
    rw [closeAllBody, hdepth, htop]
    by_cases hlt : p.blocks.depth > 1
    · simp only [hlt, decide_true, Bool.not_false, Bool.and_self, if_true]
    · simp only [hlt, decide_false, Bool.false_and, Bool.false_eq_true, if_false, pure_bind]

/-- Where the first pass has come to when one `if` is settled. -/
theorem lag_of_lags (hspot : p.spot.Past auto false P.spot) (h : P.work.Lags p.work) :
    p.Lag .strict auto false (p.blocks.depth + 1) P := by
  have hlags := h
  cases h with
  | level same => exact .inl (beside_of hspot.abreast same)
  | behind ended _ _ _ _ => exact .inr ⟨rfl, hspot, ended, hlags, Nat.lt_succ_self _⟩

theorem hasBrace_of_lags (h : P.work.Lags p.work) : P.blocks.hasBrace = p.blocks.hasBrace := by
  cases h with
  | level same => exact congrArg BlockStack.hasBrace same.blocks
  | behind _ brace _ _ _ => exact brace

/-- The first pass settles an `if` that the strict one has ended. -/
theorem closeAllStep_settles (h : p.Behind auto d P) (hP : Braceless P) :
    p.Level .strict auto false P ∨
      Ensures (closeAllStep ()) p
        (fun r q => r = .inl () ∧ q.Lag .strict auto false (q.blocks.depth + 1) P)
        fun e _ => ¬e.IsRefusal := by
  have hbrace := brace_of_hasBrace ((hasBrace_of_lags h.lags).symm.trans hP.hasBrace)
  have hlags := h.lags
  cases hlags with
  | level same => exact .inl (beside_of h.spot.abreast same)
  | behind ended _ _ settles next =>
    refine .inr ?_
    rw [Ensures, closeAllStep_of_ended ended hbrace]
    refine Ensures.bind ((ensures_self _).and (settles p rfl h.spot.quiet.left)) ?_ fun _ _ h => h.2
    rintro _ q ⟨hq, hspot, hlt⟩
    have hlag := lag_of_lags (hspot ▸ h.spot) (next p q rfl h.spot.quiet.left hq)
    rw [ensures_ite]
    split
    · next hdepth =>
      have hless : q.blocks.depth < p.blocks.depth := hlt hdepth hbrace
      rw [ensures_bind, ensures_get, if_neg (Nat.not_le_of_lt hless)]
      exact ⟨rfl, hlag⟩
    · exact ⟨rfl, hlag⟩

/-- What follows one repetition of a loop. -/
def iterateNext (step : α → Compile (α ⊕ β)) : List γ → α ⊕ β → Compile β
  | _, .inr b => pure b
  | [], .inl _ => throw (.fault .unbounded)
  | _ :: bound, .inl a => iterate step bound a

theorem iterate_eq (step : α → Compile (α ⊕ β)) (bound : List γ) (a : α) :
    iterate step bound a = step a >>= iterateNext step bound := by
  cases bound with
  | nil =>
    rw [iterate]
    congr 1
    funext r
    cases r <;> rfl
  | cons c bound =>
    rw [iterate]
    congr 1
    funext r
    cases r <;> rfl

/-- A loop of a second pass that goes on. -/
theorem paired_iterateNext {step : α → Compile (α ⊕ β)} {a : α} {m : Compile β}
    {T : β → β → Pass → Pass → Prop}
    (h : ∀ BOUND' : List γ, Paired .strict m p (iterate step BOUND' a) (some P) T) :
    Paired .strict m p (iterateNext step BOUND (.inl a)) (some P) T := by
  cases BOUND with
  | nil => exact paired_fault_right rfl _ nofun
  | cons _ BOUND => exact h BOUND

/-- What comes of one repetition, if it is known what comes of the next ones. -/
theorem closeAllLoop_of_next {bound : List γ} (hlag : ∃ d, p.Lag .strict auto false d P)
    (hP : Braceless P)
    (hnone : Lockstep .warn false false (iterateNext closeAllStep bound (.inl ()))
      (iterateNext closeAllStep bound (.inl ())))
    (hnext : ∀ q Q (BOUND' : List γ), (∃ d, q.Lag .strict auto false d Q) → Braceless Q →
      Paired .strict (iterateNext closeAllStep bound (.inl ())) q (iterate closeAllStep BOUND' ())
        (some Q) fun a b q Q => b = a ∧ q.Level .strict auto false Q) :
    Paired .strict (iterate closeAllStep bound ()) p (iterate closeAllStep BOUND ()) (some P)
      fun a b q Q => b = a ∧ q.Level .strict auto false Q := by
  have hlevel (h : p.Level .strict auto false P) :
      Paired .strict (iterate closeAllStep bound ()) p (iterate closeAllStep BOUND ()) (some P)
        fun a b q Q => b = a ∧ q.Level .strict auto false Q := by
    rw [iterate_eq, iterate_eq]
    refine (closeAllStep_paired h hP).bind fun r R q Y hq => ?_
    cases Y with
    | none =>
      cases r with
      | inl _ => exact paired_none hnone hq
      | inr a => exact hq
    | some Q =>
      obtain ⟨rfl, hq⟩ := hq
      cases R with
      | inl _ => exact paired_iterateNext fun BOUND' => hnext q Q BOUND' hq.1 hq.2
      | inr a => exact ⟨rfl, hq⟩
  obtain ⟨d, hlag | ⟨-, hlag⟩⟩ := hlag
  · exact hlevel hlag
  rcases closeAllStep_settles hlag hP with hlag | hsettles
  · exact hlevel hlag
  · rw [iterate_eq]
    refine paired_left (hsettles.imp ?_)
    rintro _ q ⟨rfl, hq⟩
    exact hnext q P BOUND ⟨_, hq⟩ hP

/-- **All bodies are closed.** The first pass settles what it has waited with. -/
theorem closeAllLoop_paired (bound BOUND : List γ) (hlag : ∃ d, p.Lag .strict auto false d P)
    (hP : Braceless P) :
    Paired .strict (iterate closeAllStep bound ()) p (iterate closeAllStep BOUND ()) (some P)
      fun a b q Q => b = a ∧ q.Level .strict auto false Q := by
  induction bound generalizing BOUND p P with
  | nil =>
    refine closeAllLoop_of_next hlag hP (together_throw _) fun q Q BOUND' _ _ => ?_
    exact paired_fault_left rfl _
  | cons c bound ih =>
    refine closeAllLoop_of_next hlag hP ?_ fun q Q BOUND' hq hQ => ih BOUND' hq hQ
    exact together_iterate (closeAllStep_lockstep Strictness.warn_ne_strict) bound bound
      (fun _ => rfl) ()

theorem closeAll_lockstep (hμ : μ ≠ .strict) : Lockstep μ auto quit closeAll closeAll := by
  rw [closeAll]
  refine parallel_shared fun p P h => ?_
  rw [h.blocks]
  refine together_ite (together_pure _) (together_ite (together_pure _) ?_)
  exact together_iterate (closeAllStep_lockstep hμ) _ _ (fun _ => rfl) ()

/-- Where nothing is open there is nothing to close. -/
theorem closeAll_of_isIdle (h : p.blocks.isIdle = true) : closeAll p = .ok true p := by
  rw [closeAll]
  change (if p.blocks.isIdle then _ else _ : Compile Bool) p = _
  rw [if_pos h]
  rfl

theorem closeAll_unless (p : Pass) : closeAll p =
    (if p.blocks.hasBrace then pure false else iterate closeAllStep p.blocks.toList () :
      Compile Bool) p := by
  by_cases hidle : p.blocks.isIdle = true
  · have hblocks := BlockStack.eq_of_isIdle hidle
    have hstep : closeAllStep () p = .ok (.inr true) p := by
      rw [closeAllStep_eq, hblocks]
      rfl
    rw [closeAll_of_isIdle hidle, hblocks]
    change _ = (closeAllStep () >>= _) p
    rw [bind_of_ok hstep]
    rfl
  · rw [closeAll]
    change (if p.blocks.isIdle then _ else _ : Compile Bool) p = _
    rw [if_neg hidle]

/-- **The end of everything that is open.** Where it succeeds the works are the same again. -/
theorem closeAll_paired (h : p.Partner (Lag μ auto false d) X) :
    Paired μ closeAll p closeAll X fun a b q Q => b = a ∧
      q.Beside μ (Spot.Abreast μ auto false) (fun w W => a = true → w.Same μ W) Q := by
  cases X with
  | none => exact paired_none (closeAll_lockstep Strictness.warn_ne_strict) h
  | some P =>
    by_cases hμ : μ = .strict
    · subst hμ
      have hlags : P.work.Lags p.work := h.elim (fun h => .level h.work) fun h => h.2.lags
      have hspot : p.spot.Abreast .strict auto false P.spot :=
        h.elim (fun h => h.spot) fun h => h.2.spot.abreast
      change Agrees _ _ (closeAll p) (closeAll P)
      rw [closeAll_unless, closeAll_unless, hasBrace_of_lags hlags]
      split
      · exact ⟨rfl, beside_of hspot (by simp)⟩
      · next hbrace =>
        have hP : Braceless P := by
          refine ⟨hspot.mode, ?_⟩
          rw [hasBrace_of_lags hlags]
          simpa using hbrace
        refine (closeAllLoop_paired _ _ ⟨d, h⟩ hP).mono fun a b q Q hq => ?_
        exact ⟨hq.1, hq.2.spot, hq.2.line, fun _ => hq.2.work⟩
    · have hlevel : p.Level μ auto false P := h.resolve_right fun h => hμ h.1
      refine (closeAll_lockstep hμ p (some P) hlevel).mono fun a b q Q hq => ?_
      exact ⟨hq.1, hq.2.spot, hq.2.line, fun _ => hq.2.work⟩

/-! ## Items -/

/-- A definition. -/
def definition : Compile Unit := do
  if ← closeAll then define else refuseHere .nestedFunction

theorem item_of_define (hk : p.token.kind = .keyword .define) : item p = definition p := by
  change (if p.token.kind == .keyword .define then _ else _ : Compile Unit) p = _
  rw [if_pos (by simpa using hk)]
  change (if p.blocks.isIdle then _ else _ : Compile Unit) p = _
  split
  · next hidle =>
    rw [definition, bind_of_ok (closeAll_of_isIdle hidle)]
    rfl
  · rfl

theorem definition_paired (h : p.Partner (Lag μ auto false d) X) :
    Paired μ definition p definition X fun _ _ q Q => Trail μ q Q := by
  refine (closeAll_paired h).bind fun a b q Y hq => ?_
  cases Y with
  | none =>
    exact paired_none (together_ite (lockstep_of_fine lockstep_define) refuseHere_abreast) hq
  | some Q =>
    obtain ⟨rfl, hq⟩ := hq
    split
    · next hall =>
      have hlevel : q.Level μ auto false Q := ⟨hq.spot, hq.line, hq.work hall⟩
      exact (lockstep_of_fine lockstep_define q (some Q) hlevel).mono fun _ _ _ _ hr => trail_of_level hr.2
    · exact paired_refuseHere (X := some Q) hq

theorem item_paired (h : p.Partner (Level μ auto false) X) :
    Paired μ item p item X fun _ _ q Q => Trail μ q Q := by
  have htoken := (sees_of_partner h).token
  by_cases hk : p.token.kind = .keyword .define
  · have hlag : p.Partner (Lag μ auto false 0) X := by
      cases X with
      | none => exact h
      | some P => exact .inl h
    have hdefine := definition_paired hlag
    cases X with
    | none =>
      rw [Paired, Ensures, item_of_define hk]
      exact hdefine
    | some P =>
      rw [Paired, item_of_define hk, item_of_define (htoken ▸ hk)]
      exact hdefine
  · cases X with
    | none =>
      rw [Paired, Ensures, item_eq_statement hk]
      exact statement_paired (μ := μ) (X := none) h
    | some P =>
      rw [Paired, item_eq_statement hk, item_eq_statement (htoken ▸ hk)]
      exact statement_paired (X := some P) h

/-- Where an `if` waits, a token that is neither a line feed nor `else`, `auto` or `define` settles
it. -/
theorem item_of_ended (hquiet : p.spot.Quiet .warn) (hended : p.blocks.top.ifEnded = true)
    (hdefine : p.token.kind ≠ .keyword .define) (hauto : p.token.kind ≠ .keyword .autoDecl) :
    item p = settleIf { p with autoAllowed := false } := by
  have hnewline : p.token.kind ≠ .newline := hquiet.newline
  have hnoElse : p.token.kind ≠ .keyword .elseBranch := hquiet.noElse
  have hinner : innerFrom p.token.kind = (do
      forbidAuto
      if (← topBlock).ifEnded then settleIf
      else if p.token.kind = .symbol .leftBrace then
        openBrace
        advance
      else plainStatement) := by
    unfold innerFrom
    split
    · contradiction
    · contradiction
    · contradiction
    · rfl
  rw [item_eq_statement hdefine, statement_eq, statementFrom, if_pos (.inr (.inr (.inr hended))),
    innerStatement_eq, hinner]
  change (if p.blocks.top.ifEnded then _ else _ : Compile Unit) _ = _
  rw [if_pos hended]

/-- `auto` is too late. -/
theorem item_of_autoDecl (hk : p.token.kind = .keyword .autoDecl) (hauto : p.autoAllowed = false) :
    ∃ e, item p = .error e p := by
  rw [item_eq_statement (by simp [hk]), statement_eq, statementFrom, if_pos (.inr (.inl hk)),
    innerStatement_eq, hk]
  change ∃ e, (if p.autoAllowed then _ else _ : Compile Unit) p = _
  rw [if_neg (by simp [hauto])]
  exact ⟨_, rfl⟩

/-! ## The items of a chunk -/

/-- Two passes before an item, of which the first may lag behind. -/
def Ready (μ : Strictness) (p P : Pass) : Prop :=
  (∃ auto, p.Level μ auto false P) ∨ μ = .strict ∧ ∃ d, p.Behind false d P

/-- What comes of a chunk. A status can differ only where the first pass waits for an `else`. -/
structure Finished (μ : Strictness) (s S : Status) (q Q : Pass) : Prop where
  status : μ ≠ .strict → S = s
  ends : s = .quit ∧ S = .quit ∧ (∃ auto, q.Level μ auto true Q) ∨
    s ≠ .quit ∧ S ≠ .quit ∧ Ready μ q Q

/-- What comes of one item. -/
def ItemEnds (μ : Strictness) : Unit ⊕ Status → Unit ⊕ Status → Pass → Pass → Prop
  | .inl _, .inl _ => Ready μ
  | .inr s, .inr S => Finished μ s S
  | _, _ => fun _ _ => False

theorem spot_committed (p : Pass) : (committed p).spot = p.spot := by
  unfold committed Session.commit
  split <;> rfl

theorem work_committed (p : Pass) : (committed p).work = p.work := by
  unfold committed Session.commit
  split <;> rfl

theorem ready_of_eq {q Q : Pass} (h : Ready μ p P) (hspot : q.spot = p.spot)
    (hwork : q.work = p.work) (hSpot : Q.spot = P.spot) (hWork : Q.work = P.work) :
    Ready μ q Q := by
  have hblocks : q.blocks = p.blocks := congrArg Work.blocks hwork
  refine h.imp ?_ fun ⟨hμ, d, h⟩ => ⟨hμ, d, ?_⟩
  · rintro ⟨auto, h⟩
    refine ⟨auto, beside_of ?_ ?_⟩
    · rw [hspot, hSpot]
      exact h.spot
    · rw [hwork, hWork]
      exact h.work
  · refine ⟨?_, hblocks ▸ h.ended, ?_, hblocks ▸ h.lt⟩
    · rw [hspot, hSpot]
      exact h.spot
    · rw [hwork, hWork]
      exact h.lags

theorem itemEnd_paired (h : p.Partner (Trail μ) X) :
    Paired μ itemEnd p itemEnd X (ItemEnds μ) := by
  cases X with
  | none =>
    cases hquit : p.quitting with
    | true => exact ensures_of_ok (itemEnd_of_quitting hquit) h
    | false =>
      refine ensures_of_ok (itemEnd_of_not hquit) ?_
      change Spot.warnings (Pass.spot _) ≠ []
      rw [spot_committed]
      exact h
  | some P =>
    have hgo (hready : Ready μ p P) (hp : p.quitting = false) (hP : P.quitting = false) :
        Paired μ itemEnd p itemEnd (some P) (ItemEnds μ) := by
      rw [Paired, itemEnd_of_not hp, itemEnd_of_not hP]
      exact ready_of_eq hready (spot_committed p) (work_committed p) (spot_committed P)
        (work_committed P)
    rcases h with ⟨auto, quit, h⟩ | ⟨hμ, d, h⟩
    · have hp : p.quitting = quit := h.spot.quit.1
      have hP : P.quitting = quit := h.spot.quit.2
      cases quit with
      | true =>
        rw [Paired, itemEnd_of_quitting hp, itemEnd_of_quitting hP]
        exact ⟨fun _ => rfl, .inl ⟨rfl, rfl, auto, h⟩⟩
      | false => exact hgo (.inl ⟨auto, h⟩) hp hP
    · exact hgo (.inr ⟨hμ, d, h⟩) h.spot.abreast.quit.1 h.spot.abreast.quit.2

theorem status_ne_quit (s : Session) : s.status ≠ .quit := by
  unfold Session.status
  split <;> nofun

theorem status_eq (h : p.work.Same μ P.work) : P.status = p.status := by
  have htarget : P.target = p.target := h.target
  have hblocks : P.blocks = p.blocks := h.blocks
  unfold Session.status Session.isReady
  rw [htarget, hblocks]

/-- **The next item.** -/
theorem nextItem_paired (h : p.Partner (Level μ auto false) X) :
    Paired μ nextItem p nextItem X (ItemEnds μ) := by
  rw [nextItem]
  refine paired_isAt h ?_
  split
  · cases X with
    | none => exact h
    | some P =>
      refine ⟨fun _ => status_eq h.work, .inr ⟨status_ne_quit _, status_ne_quit _, .inl ⟨auto, h⟩⟩⟩
  · exact (item_paired h).bind fun _ _ q Y hq => itemEnd_paired hq

/-- **The next item of a pass that lags behind.** It does what the strict pass does, or settles an
`if` while that stays where it is. -/
theorem nextItem_behind (h : p.Behind false d P) :
    (∃ auto, p.Level .strict auto false P) ∨
      Paired .strict nextItem p nextItem (some P) (ItemEnds .strict) ∨
      Ensures nextItem p (fun r q => r = .inl () ∧ Ready .strict q P) fun e _ => ¬e.IsRefusal := by
  have htoken : P.token = p.token := h.spot.abreast.token
  by_cases heof : p.token.kind = .eof
  · refine .inr (.inl ?_)
    rw [Paired, nextItem_of_eof heof, nextItem_of_eof (htoken ▸ heof)]
    exact ⟨absurd rfl, .inr ⟨status_ne_quit _, status_ne_quit _, .inr ⟨rfl, d, h⟩⟩⟩
  have hne : P.token.kind ≠ .eof := htoken ▸ heof
  by_cases hdefine : p.token.kind = .keyword .define
  · refine .inr (.inl ?_)
    have hlag : p.Lag .strict false false d P := .inr ⟨rfl, h⟩
    have hpaired := (definition_paired (X := some P) hlag).bind (f := fun _ => itemEnd)
      (F := fun _ => itemEnd) fun _ _ q Y hq => itemEnd_paired hq
    rw [Paired, nextItem_of_ne heof, nextItem_of_ne hne, bind_congr_at (item_of_define hdefine),
      bind_congr_at (item_of_define (htoken ▸ hdefine))]
    exact hpaired
  by_cases hauto : p.token.kind = .keyword .autoDecl
  · refine .inr (.inl ?_)
    obtain ⟨e, he⟩ := item_of_autoDecl hauto h.spot.abreast.auto.1
    obtain ⟨e', he'⟩ := item_of_autoDecl (p := P) (htoken ▸ hauto) h.spot.abreast.auto.2
    rw [Paired, nextItem_of_ne heof, nextItem_of_ne hne]
    simp only [Bind.bind, EStateM.bind, he, he']
    exact .inl rfl
  have hlags := h.lags
  cases hlags with
  | level same => exact .inl ⟨false, beside_of h.spot.abreast same⟩
  | behind ended _ _ settles next =>
    refine .inr (.inr ?_)
    have hforbid : ({ p with autoAllowed := false } : Pass) = p := by
      rw [← h.spot.abreast.auto.1]
      rfl
    have hitem : item p = settleIf p := by
      rw [item_of_ended h.spot.quiet.left ended hdefine hauto, hforbid]
    rw [Ensures, nextItem_of_ne heof, bind_congr_at hitem]
    refine Ensures.bind ((ensures_self _).and (settles p rfl h.spot.quiet.left)) ?_ fun _ _ h => h.2
    rintro _ q ⟨hq, hspot, -⟩
    have hquit : q.quitting = false :=
      (congrArg Spot.quitting hspot).trans h.spot.abreast.quit.1
    refine ensures_of_ok (itemEnd_of_not hquit) ⟨rfl, ?_⟩
    have hready : Ready .strict q P := by
      have hlag := lag_of_lags (hspot ▸ h.spot) (next p q rfl h.spot.quiet.left hq)
      exact hlag.imp (fun h => ⟨false, h⟩) fun h => ⟨h.1, _, h.2⟩
    exact ready_of_eq hready (spot_committed q) (work_committed q) rfl rfl

/-- A warning of the first pass stays to the end of its chunk. -/
theorem items_warned (bound : List γ) (h : p.warnings ≠ []) :
    Accepts (iterate (fun (_ : Unit) => nextItem) bound ()) p fun _ q => q.warnings ≠ [] := by
  refine accepts_iterate (fun _ q => q.warnings ≠ []) (fun _ q hq => ?_) bound () p h
  have hpartner : q.Partner (Level .warn false false) none := hq
  have hnext : Accepts nextItem q fun _ r => r.warnings ≠ [] := nextItem_paired hpartner
  refine hnext.imp ?_
  rintro (_ | _) r hr <;> exact hr

/-- What comes of one item, if it is known what comes of the next ones. -/
theorem items_of_next {bound : List γ} (h : Ready μ p P)
    (hlength : μ ≠ .strict → BOUND.length = bound.length)
    (hnext : ∀ q Q (BOUND' : List γ), Ready μ q Q →
      (μ ≠ .strict → BOUND'.length + 1 = bound.length) →
      Paired μ (iterateNext (fun _ => nextItem) bound (.inl ())) q
        (iterate (fun (_ : Unit) => nextItem) BOUND' ()) (some Q) (Finished μ)) :
    Paired μ (iterate (fun (_ : Unit) => nextItem) bound ()) p
      (iterate (fun (_ : Unit) => nextItem) BOUND ()) (some P) (Finished μ) := by
  have hboth (hitem : Paired μ nextItem p nextItem (some P) (ItemEnds μ)) :
      Paired μ (iterate (fun (_ : Unit) => nextItem) bound ()) p
        (iterate (fun (_ : Unit) => nextItem) BOUND ()) (some P) (Finished μ) := by
    rw [iterate_eq, iterate_eq]
    refine hitem.bind fun r R q Y hq => ?_
    cases Y with
    | none =>
      cases r with
      | inr s => exact hq
      | inl _ =>
        cases bound with
        | nil => trivial
        | cons _ bound => exact items_warned bound hq
    | some Q =>
      cases r with
      | inr s =>
        cases R with
        | inr S => exact hq
        | inl _ => exact hq.elim
      | inl _ =>
        cases R with
        | inr S => exact hq.elim
        | inl _ =>
          cases BOUND with
          | cons _ BOUND => exact hnext q Q BOUND hq hlength
          | nil =>
            by_cases hμ : μ = .strict
            · exact paired_fault_right hμ _ nofun
            · have hnil : bound = [] := List.eq_nil_of_length_eq_zero (hlength hμ).symm
              subst hnil
              exact paired_throw _
  rcases h with ⟨auto, h⟩ | ⟨rfl, d, h⟩
  · exact hboth (nextItem_paired (X := some P) h)
  · rcases nextItem_behind h with ⟨auto, h⟩ | hpaired | halone
    · exact hboth (nextItem_paired (X := some P) h)
    · exact hboth hpaired
    · rw [iterate_eq]
      refine paired_left (halone.imp ?_)
      rintro _ q ⟨rfl, hq⟩
      exact hnext q P BOUND hq (absurd rfl)

/-- **The items of a chunk.** -/
theorem items_paired (bound BOUND : List γ) (h : Ready μ p P)
    (hlength : μ ≠ .strict → BOUND.length = bound.length) :
    Paired μ (iterate (fun (_ : Unit) => nextItem) bound ()) p
      (iterate (fun (_ : Unit) => nextItem) BOUND ()) (some P) (Finished μ) := by
  induction bound generalizing BOUND p P with
  | nil =>
    refine items_of_next h hlength fun q Q BOUND' _ hlength' => ?_
    exact paired_fault_left (Decidable.of_not_not fun hμ => by cases hlength' hμ) _
  | cons c bound ih =>
    refine items_of_next h hlength fun q Q BOUND' hq hlength' => ih BOUND' hq fun hμ => ?_
    simpa using hlength' hμ

/-- **A whole chunk.** -/
theorem chunk_paired (h : p.Level μ auto false P) :
    Paired μ chunk p chunk (some P) (Finished μ) := by
  rw [chunk]
  refine (advance_abreast p (some P) h).seq fun _ q Y hq => paired_get ?_
  cases Y with
  | none => exact items_warned _ hq
  | some Q =>
    refine items_paired _ _ (.inl ⟨auto, hq⟩) fun hμ => ?_
    rw [List.length_replicate, List.length_replicate, Option.getD_some, itemBound, itemBound,
      show Q.blocks = q.blocks from hq.work.blocks,
      show Q.upcoming.length = q.upcoming.length from hq.spot.upcoming.length_eq hμ]

/-- **The end of the input.** -/
theorem inputEnd_paired (hspot : p.spot.Abreast μ auto false P.spot)
    (hwork : p.work.Same μ P.work ∨ μ = .strict ∧ P.work.Lags p.work)
    (heof : Accepts advance p fun _ q => q.token.kind ≠ .newline) :
    Paired μ inputEnd p inputEnd (some P) fun _ _ q Q => q.Level μ auto false Q := by
  have hbeside : p.Beside μ (Spot.Abreast μ auto false)
      (fun w W => w.Same μ W ∨ μ = .strict ∧ W.Lags w) P := beside_of hspot hwork
  refine ((advance_abreast p (some P) hbeside).and_left heof).bind fun _ _ q Y hq => ?_
  have hlag : q.Partner (Lag μ auto false (q.blocks.depth + 1)) Y := by
    cases Y with
    | none => exact hq
    | some Q =>
      obtain ⟨⟨-, hq⟩, hnewline⟩ := hq
      rcases hq.work with hwork | ⟨rfl, hlags⟩
      · exact .inl ⟨hq.spot, hq.line, hwork⟩
      · exact lag_of_lags ⟨hq.spot, hnewline⟩ hlags
  refine (closeAll_paired hlag).bind fun a b r Z hr => ?_
  cases Z with
  | none => exact paired_none (together_ite (together_pure ()) refuseHere_abreast) hr
  | some R =>
    obtain ⟨rfl, hr⟩ := hr
    split
    · next hall => exact ⟨hr.spot, hr.line, hr.work hall⟩
    · exact paired_refuseHere (X := some R) hr

end Compile

end DeskCalc
