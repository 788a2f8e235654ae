import DeskCalc.Proofs.Chunks.Items
import DeskCalc.Proofs.Strictness.Lagging

/-!
# Statements under two strictnesses, one after the other

A statement is compiled in lockstep, apart from the `if`s that it ends (`statement_paired`): a
strict pass may be ahead afterwards. What a statement does depends on how many blocks are open then,
and a pass that lags behind has fewer of them open than before, like the strict one.
-/

namespace DeskCalc

namespace Compile

open Pass

variable {α β γ : Type} {μ : Strictness} {S : Work → Work → Prop} {auto quit : Bool} {p P : Pass}
  {X : Option Pass} {d : Nat} {U : α → α → Pass → Pass → Prop} {m M : Compile α}

/-! ## Looking -/

theorem paired_kind {f F : Token.Kind → Compile α}
    (h : p.Partner (Beside μ (Spot.Abreast μ auto quit) S) X)
    (hf : Paired μ (f p.token.kind) p (F p.token.kind) X U) :
    Paired μ (kind >>= f) p (kind >>= F) X U := by
  refine paired_get (f := fun p => f p.token.kind) (F := fun p => F p.token.kind) ?_
  rw [(sees_of_partner h).token]
  exact hf

theorem paired_isAt {k : Token.Kind} {f F : Bool → Compile α}
    (h : p.Partner (Beside μ (Spot.Abreast μ auto quit) S) X)
    (hf : Paired μ (f (p.token.kind == k)) p (F (p.token.kind == k)) X U) :
    Paired μ (isAt k >>= f) p (isAt k >>= F) X U := by
  refine paired_get (f := fun p => f (p.token.kind == k)) (F := fun p => F (p.token.kind == k)) ?_
  rw [(sees_of_partner h).token]
  exact hf

theorem paired_topBlock {f F : Block → Compile α} (h : p.Partner (Level μ auto quit) X)
    (hf : Paired μ (f p.blocks.top) p (F p.blocks.top) X U) :
    Paired μ (topBlock >>= f) p (topBlock >>= F) X U := by
  refine paired_get (f := fun p => f p.blocks.top) (F := fun p => F p.blocks.top) ?_
  rw [show (X.getD p).blocks = p.blocks from (same_of_partner h).blocks]
  exact hf

theorem paired_lag (hm : Lockstep μ auto quit m M) (h : p.Partner (Level μ auto quit) X) :
    Paired μ m p M X fun _ _ q Q => q.Lag μ auto quit d Q :=
  (hm p X h).mono fun _ _ _ _ hq => .inl hq.2

/-! ## The parts of a statement -/

theorem statementHead_paired (k : Token.Kind) (h : p.Partner (Level μ auto false) X) :
    Paired μ (statementHead k) p (statementHead k) X fun _ _ q Q =>
      q.Lag μ auto false p.blocks.depth Q := by
  unfold statementHead
  split
  · exact paired_lag (expression_lockstep _ _) h
  split
  · exact paired_lag (string_lockstep.bind fun _ => emit_parallel _) h
  · exact endBody_paired true h
  case h_7 => exact paired_lag ((emit_parallel _).bind fun _ => advance_abreast) h
  case h_9 => exact paired_lag (lockstep_of_fine (fine_printItems ⟨rfl, rfl, by simp⟩)) h
  case h_10 => exact paired_lag (lockstep_of_fine (fine_printItems ⟨rfl, rfl, by simp⟩)) h
  case h_13 => exact paired_unexpected h
  all_goals exact paired_lag (lockstep_of_fine inferInstance) h

theorem statementTail_abreast : Abreast μ auto quit S statementTail statementTail := by
  refine (skipWhile_abreast _).bind fun _ => abreast_get fun p P h => ?_
  rw [h.previous]
  refine kind_abreast.bind fun k => ?_
  split
  · exact here_abreast.bind fun span => report_abreast _ _
  · exact together_pure _

theorem statementTail_stops : Accepts statementTail p fun _ q => q.token.kind ≠ .newline := by
  have hreport (v : Violation) (span : Span) (q : Pass) :
      Accepts (report v span) q fun _ r => r.token = q.token := by
    rw [Accepts, report, ensures_bind, ensures_get]
    split
    · rfl
    · rfl
    · trivial
  refine (skipWhile_stops _).bind (fun _ q hq => ?_) fun _ _ => id
  have hnewline : q.token.kind ≠ .newline := by
    intro heq
    rw [heq] at hq
    cases hq
  simp only [ensures_bind, ensures_get, ensures_kind, ensures_here, ensures_ite, ensures_pure]
  split
  · exact (hreport _ _ q).imp fun _ r hr => hr ▸ hnewline
  · exact hnewline

/-- The delimiter of a statement is skipped by both, whatever one of them waits with. -/
theorem statementTail_paired (h : p.Partner (Lag μ auto false d) X) :
    Paired μ statementTail p statementTail X fun _ _ q Q => q.Lag μ auto false d Q := by
  cases X with
  | none =>
    exact paired_none statementTail_abreast h
  | some P =>
    rcases h with h | ⟨rfl, h⟩
    · exact paired_lag (X := some P) statementTail_abreast h
    · have hkeep : p.Beside .strict (Spot.Abreast .strict auto false)
          (fun w W => w = p.work ∧ W = P.work) P := beside_of h.spot.abreast ⟨rfl, rfl⟩
      refine ((statementTail_abreast p (some P) hkeep).and_left statementTail_stops).mono ?_
      rintro _ _ q Q ⟨⟨-, hq⟩, hnewline⟩
      obtain ⟨hw, hW⟩ := hq.work
      have hblocks : q.blocks = p.blocks := congrArg Work.blocks hw
      exact .inr ⟨rfl, ⟨hq.spot, hnewline⟩, hblocks ▸ h.ended, hw ▸ hW ▸ h.lags, hblocks ▸ h.lt⟩

theorem plainEnd_lockstep (blocks : BlockStack) :
    Lockstep μ auto quit (plainEnd blocks) (plainEnd blocks) := by
  refine parallel_shared fun p P h => ?_
  rw [h.blocks]
  exact atDelimiter_lockstep.bind fun _ => together_ite unexpected_abreast statementTail_abreast

theorem plainEnd_of_lt {blocks : BlockStack} (h : p.blocks.depth < blocks.depth) :
    plainEnd blocks p = statementTail p := by
  have hne : (blocks.depth == p.blocks.depth) = false := beq_false_of_ne (by omega)
  change (if _ then _ else _ : Compile Unit) p = _
  rw [if_neg (by simp [hne])]

theorem plainEnd_paired {blocks : BlockStack} (h : p.Partner (Lag μ auto false blocks.depth) X) :
    Paired μ (plainEnd blocks) p (plainEnd blocks) X fun _ _ q Q =>
      q.Lag μ auto false blocks.depth Q := by
  cases X with
  | none => exact paired_none (plainEnd_lockstep blocks) h
  | some P =>
    have hlag := h
    rcases h with h | ⟨rfl, h⟩
    · exact paired_lag (X := some P) (plainEnd_lockstep blocks) h
    · have hlt : P.blocks.depth < blocks.depth := Nat.lt_of_le_of_lt h.lags.depth_le h.lt
      change Agrees _ _ (plainEnd blocks p) (plainEnd blocks P)
      rw [plainEnd_of_lt h.lt, plainEnd_of_lt hlt]
      exact statementTail_paired (X := some P) hlag

theorem plainStatement_paired (h : p.Partner (Level μ auto false) X) :
    Paired μ plainStatement p plainStatement X fun _ _ q Q =>
      ∃ quit, q.Lag μ auto quit p.blocks.depth Q := by
  refine paired_kind h ?_
  unfold plainFrom
  split
  · exact (paired_lag (skipWhile_abreast _) h).mono fun _ _ _ _ hq => ⟨false, hq⟩
  · cases X with
    | none => exact h
    | some P =>
      exact ⟨true, .inl ⟨{ h.spot with quit := ⟨rfl, rfl⟩ }, h.line, h.work⟩⟩
  · refine paired_get ?_
    rw [show (X.getD p).blocks = p.blocks from (same_of_partner h).blocks]
    refine ((statementHead_paired _ h).bind (f := fun _ => plainEnd p.blocks)
      (F := fun _ => plainEnd p.blocks) fun _ _ q Y hq => plainEnd_paired ?_).mono
      fun _ _ _ _ hq => ⟨false, hq⟩
    exact hq

/-! ## Statements -/

/-- From here on `auto` is too late for both. -/
theorem paired_forbidAuto (h : p.Partner (Level μ auto quit) X)
    (hm : ∀ q Y, q.Partner (Level μ false quit) Y → q.blocks = p.blocks → Paired μ m q M Y U) :
    Paired μ (forbidAuto >>= fun _ => m) p (forbidAuto >>= fun _ => M) X U := by
  cases X with
  | none => exact hm { p with autoAllowed := false } none h rfl
  | some P =>
    exact hm { p with autoAllowed := false } (some { P with autoAllowed := false })
      ⟨{ h.spot with auto := ⟨rfl, rfl⟩ }, h.line, h.work⟩ rfl

theorem paired_lag_quit (hm : Lockstep μ auto false m M) (h : p.Partner (Level μ auto false) X) :
    Paired μ m p M X fun _ _ q Q => ∃ quit, q.Lag μ auto quit d Q :=
  (paired_lag hm h).mono fun _ _ _ _ hq => ⟨false, hq⟩

/-- **A statement where no body is awaited.** It is blank and leaves everything as it is, or `auto`
is too late behind it. -/
theorem innerStatement_paired (h : p.Partner (Level μ auto false) X) :
    Paired μ innerStatement p innerStatement X fun _ _ q Q =>
      q.Level μ auto false Q ∨ ∃ quit, q.Lag μ false quit p.blocks.depth Q := by
  have hplain (q : Pass) (Y : Option Pass) (hq : q.Partner (Level μ false false) Y)
      (hblocks : q.blocks = p.blocks) : Paired μ plainStatement q plainStatement Y fun _ _ r R =>
        r.Level μ auto false R ∨ ∃ quit, r.Lag μ false quit p.blocks.depth R := by
    rw [← hblocks]
    exact (plainStatement_paired hq).mono fun _ _ _ _ hr => .inr hr
  refine paired_kind h ?_
  unfold innerFrom
  split
  · exact (advance_abreast p X h).mono fun _ _ _ _ hq => .inl hq.2
  · exact (autoDecl_paired h).mono fun _ _ _ _ hq => .inr ⟨false, .inl hq.2⟩
  · exact paired_forbidAuto h hplain
  · refine paired_forbidAuto h fun q Y hq hblocks => paired_topBlock hq ?_
    split
    · rw [← hblocks]
      exact (settleIf_paired hq).mono fun _ _ _ _ hr => .inr ⟨false, hr⟩
    split
    · refine (paired_lag_quit ?_ hq).mono fun _ _ _ _ hr => .inr hr
      exact openBrace_parallel.bind fun _ => advance_abreast
    · exact hplain q Y hq hblocks

/-- A pass and a strict one that may be ahead, wherever they have come to. -/
def Trail (μ : Strictness) (p P : Pass) : Prop :=
  (∃ auto quit, p.Level μ auto quit P) ∨ μ = .strict ∧ ∃ d, p.Behind false d P

theorem trail_of_level (h : p.Level μ auto quit P) : Trail μ p P := .inl ⟨auto, quit, h⟩

theorem trail_of_lag (h : p.Lag μ false quit d P) : Trail μ p P :=
  h.imp (fun h => ⟨false, quit, h⟩) fun h => ⟨h.1, d, h.2⟩

theorem bodyEnd_of_lt {brace : Bool} (h : p.blocks.depth < d) : bodyEnd brace d p = .ok () p := by
  change (if _ then _ else _ : Compile Unit) p = _
  rw [if_neg (by simp [Nat.not_le_of_lt h])]
  rfl

theorem bodyEnd_lockstep (hμ : μ ≠ .strict) (brace : Bool) :
    Lockstep μ auto quit (bodyEnd brace d) (bodyEnd brace d) := by
  intro p X h
  have hquit : (X.getD p).quitting = p.quitting := by
    cases X with
    | none => rfl
    | some P => exact h.spot.quit.2.trans h.spot.quit.1.symm
  refine paired_get ?_
  rw [hquit, show (X.getD p).blocks = p.blocks from (same_of_partner h).blocks]
  split
  · exact endBody_lockstep hμ false p X h
  · exact together_pure () p X h

theorem bodyEnd_paired {brace : Bool} (h : p.Partner (Lag μ false quit d) X) :
    Paired μ (bodyEnd brace d) p (bodyEnd brace d) X fun _ _ q Q => Trail μ q Q := by
  cases X with
  | none => exact paired_none (bodyEnd_lockstep Strictness.warn_ne_strict brace) h
  | some P =>
    rcases h with h | ⟨rfl, h⟩
    · refine paired_get ?_
      rw [Option.getD_some, show P.blocks = p.blocks from h.work.blocks,
        show P.quitting = quit from h.spot.quit.2, show p.quitting = quit from h.spot.quit.1]
      cases quit with
      | true => exact trail_of_level h
      | false =>
        split
        · exact (endBody_paired (X := some P) false h).mono fun _ _ _ _ hq => trail_of_lag hq
        · exact trail_of_level h
    · change Agrees _ _ (bodyEnd brace d p) (bodyEnd brace d P)
      rw [bodyEnd_of_lt h.lt, bodyEnd_of_lt (Nat.lt_of_le_of_lt h.lags.depth_le h.lt)]
      exact .inr ⟨rfl, d, h⟩

/-- **The beginning of a body.** -/
theorem body_paired (brace : Bool) (h : p.Partner (Level μ false false) X) :
    Paired μ (body brace) p (body brace) X fun _ _ q Q => Trail μ q Q := by
  refine (modifyBlocks_parallel _ p X h).seq fun _ q Y hq => paired_topBlock hq ?_
  split
  · split
    · refine (paired_setAuto true hq).seq fun _ r Z hr => ?_
      have hline (r : Pass) (Z : Option Pass) (auto : Bool)
          (hr : r.Partner (Level μ auto false) Z) :
          Paired μ (do if ← isAt .newline then advance else pure ()) r
            (do if ← isAt .newline then advance else pure ()) Z fun _ _ s S => Trail μ s S := by
        have hstep : Lockstep μ auto false (do if ← isAt .newline then advance else pure ())
            (do if ← isAt .newline then advance else pure ()) :=
          lockstep_ifAt advance_abreast (together_pure _)
        exact (hstep r Z hr).mono fun _ _ _ _ hs => trail_of_level hs.2
      refine paired_isAt hr ?_
      split
      · exact (autoDecl_paired hr).seq fun _ s W hs => hline s W false hs
      · exact hline r Z true hr
    · exact paired_unexpected hq
  · refine paired_get ?_
    rw [show (Y.getD q).blocks = q.blocks from (same_of_partner hq).blocks]
    refine (innerStatement_paired hq).bind (f := fun _ => bodyEnd brace q.blocks.depth)
      (F := fun _ => bodyEnd brace q.blocks.depth) fun _ _ r Z hr => ?_
    cases Z with
    | none =>
      exact paired_none (bodyEnd_lockstep Strictness.warn_ne_strict brace) hr
    | some R =>
      rcases hr with hr | ⟨quit, hr⟩
      · exact bodyEnd_paired (X := some R) (.inl hr)
      · exact bodyEnd_paired (X := some R) hr

/-- **A statement.** -/
theorem statement_paired (h : p.Partner (Level μ auto false) X) :
    Paired μ statement p statement X fun _ _ q Q => Trail μ q Q := by
  have hinner : Paired μ innerStatement p innerStatement X fun _ _ q Q => Trail μ q Q := by
    refine (innerStatement_paired h).mono fun _ _ q Q hq => ?_
    rcases hq with hq | ⟨quit, hq⟩
    · exact trail_of_level hq
    · exact trail_of_lag hq
  refine paired_kind h (paired_topBlock h ?_)
  unfold statementFrom
  split
  · exact hinner
  split
  · refine paired_forbidAuto h fun q Y hq _ => ?_
    refine (modifyBlocks_parallel _ q Y hq).seq fun _ r Z hr => ?_
    exact (advance_abreast r Z hr).seq fun _ s W hs => body_paired true hs
  split
  · exact paired_forbidAuto h fun q Y hq _ => body_paired false hq
  · exact hinner

end Compile

end DeskCalc
