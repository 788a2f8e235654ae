import DeskCalc.Proofs.Chunks.Seam
import DeskCalc.Proofs.Strictness.Statement

/-!
# The end of bodies under two strictnesses

POSIX has no `else`. A strict pass ends an `if` as soon as its body is closed, and goes on with the
body around it. The first pass leaves a mark there, and does the rest when the next token turns out
to be another one. Until then it lags behind the strict pass (`Work.Lags`): every `settleIf` brings
it closer, and the last one makes the works the same.

What is done is the same on both sides, only later on the first. So the passes are compared at
tokens that are neither a line feed nor `else` (`Spot.Quiet`), wherever these are.
-/

namespace DeskCalc

namespace BlockStack

variable {s t : BlockStack}

/-- Set or clear the mark of an `if` that may still get its `else`. -/
def setEnded (s : BlockStack) (ended : Bool) : BlockStack :=
  s.modifyTop ({ · with ifEnded := ended })

@[simp] theorem depth_setEnded (ended : Bool) : (s.setEnded ended).depth = s.depth := rfl

theorem hasBrace_pop (h : s.top.brace = false) : s.pop.hasBrace = s.hasBrace := by
  rcases s with ⟨top, _ | ⟨b, below⟩⟩
  · rfl
  · change top.brace = false at h
    simp [pop, hasBrace, toList, h]

/-- The innermost body ends with its statement. -/
structure Bare (s : BlockStack) : Prop where
  depth : 1 < s.depth
  brace : s.top.brace = false
  ended : s.top.ifEnded = false

/-- Bodies without a brace have been closed. -/
structure Sheds (s t : BlockStack) : Prop where
  brace : t.hasBrace = s.hasBrace
  depth : t = s ∨ t.depth < s.depth

theorem Sheds.refl : s.Sheds s := ⟨rfl, .inl rfl⟩

theorem Sheds.depth_le (h : s.Sheds t) : t.depth ≤ s.depth :=
  h.depth.elim (fun h => h ▸ Nat.le_refl _) Nat.le_of_lt

/-- Where the next body does not end with its statement some body has been closed. -/
theorem Sheds.depth_lt (h : s.Sheds t) (hs : s.Bare) (ht : ¬t.Bare) : t.depth < s.depth := by
  rcases h.depth with rfl | hlt
  · exact absurd hs ht
  · exact hlt

/-- One more body is closed, which may be that of an `if`. -/
theorem Sheds.pop (h : s.Sheds t) (hdepth : 1 < s.depth) (hbrace : t.top.brace = false)
    (ended : Bool) : s.Sheds (t.pop.setEnded ended) := by
  refine ⟨(hasBrace_pop hbrace).trans h.brace, .inr ?_⟩
  rw [depth_setEnded]
  rcases h.depth with rfl | hlt
  · exact depth_pop_lt hdepth
  · exact Nat.lt_of_le_of_lt (depth_pop_le _) hlt

end BlockStack

/-- A token at which nothing is looked for behind the body of an `if`. -/
structure Spot.Quiet (mode : Strictness) (x : Spot) : Prop where
  mode : x.strictness = mode
  newline : x.token.kind ≠ .newline
  noElse : x.token.kind ≠ .keyword .elseBranch

/-- The second pass is strict, and both are at such tokens. -/
structure Spot.BothQuiet (x X : Spot) : Prop where
  left : x.Quiet .warn
  right : X.Quiet .strict

/-- Both passes are at the same token, which is no line feed. -/
structure Spot.Past (auto quit : Bool) (x X : Spot) : Prop where
  abreast : x.Abreast .strict auto quit X
  newline : x.token.kind ≠ .newline

theorem Spot.Past.quiet {auto quit : Bool} {x X : Spot} (h : x.Past auto quit X) :
    x.BothQuiet X := by
  have hnoElse := (h.abreast.clean rfl).2
  refine ⟨⟨h.abreast.warn, h.newline, hnoElse⟩, h.abreast.mode, ?_, ?_⟩
  · exact h.abreast.token ▸ h.newline
  · exact h.abreast.token ▸ hnoElse

/-- The same work, but that the first pass has a mark on the innermost block. -/
structure Work.Due (μ : Strictness) (w W : Work) : Prop where
  same : { w with blocks := W.blocks }.Same μ W
  blocks : w.blocks = W.blocks.setEnded true

namespace Compile

open Pass

variable {α β γ : Type} {μ : Strictness} {V V' : Spot → Spot → Prop} {auto quit : Bool} {p P : Pass}
  {X : Option Pass} {mode : Strictness}

/-! ## Work without tokens -/

theorem spot_of_works {q : Pass} (h : p.Works q) : q.spot = p.spot := by
  obtain ⟨_, _, _, _, _, rfl⟩ := h
  rfl

/-- An `if` without `else` ends. -/
theorem endIf_blocks : Ensures endIf p
    (fun _ q => q.spot = p.spot ∧ q.blocks = p.blocks.setEnded false) fun e _ => ¬e.IsRefusal := by
  rw [endIf, ensures_bind]
  refine resolveExit_changes.imp ?_
  rintro - _ ⟨_, _, rfl⟩
  exact ⟨rfl, rfl⟩

/-! ## Bodies that end at a quiet token -/

theorem skipNewlines_of_quiet (h : p.spot.Quiet mode) : skipNewlines p = .ok () p := by
  have hnewline : p.token.kind ≠ .newline := h.newline
  exact skipWhile_of_false (by simpa using hnewline)

theorem closeIfHere_of_strict {outer : Bool} (h : p.strictness = .strict) :
    closeIfHere outer p =
      (endIf >>= fun _ => pure false : Compile Bool) { p with blocks := p.blocks.pop } := by
  change (if p.strictness = .strict then _ else _ : Compile Bool) _ = _
  rw [if_pos h]

theorem closeIf_quiet (h : p.spot.Quiet mode) : Ensures (closeIf false) p
    (fun found q => found = false ∧ q.spot = p.spot ∧
      ∃ ended, q.blocks = p.blocks.pop.setEnded ended) fun e _ => ¬e.IsRefusal := by
  have hclose : closeIf false p = closeIfHere false p :=
    bind_of_ok (f := fun _ => closeIfHere false) (skipNewlines_of_quiet h)
  rw [Ensures, hclose]
  by_cases hstrict : p.strictness = .strict
  · rw [closeIfHere_of_strict hstrict]
    change Ensures (endIf >>= fun _ => pure false) { p with blocks := p.blocks.pop } _ _
    refine endIf_blocks.bind (fun _ q hq => ?_) fun _ _ => id
    exact ⟨rfl, hq.1, false, hq.2⟩
  · rw [closeIfHere_of_ne hstrict, lookForElse_of_ne (p := ifClosed p) h.noElse]
    exact ⟨rfl, rfl, true, rfl⟩

/-- Whether the body around one that has been closed ends as well. -/
theorem ending_cases (s : BlockStack) :
    s.Bare ∧ ending false false s = .inl ⟨false, false⟩ ∨
      ¬s.Bare ∧ ending false false s = .inr false := by
  by_cases h : s.Bare
  · refine .inl ⟨h, ?_⟩
    rw [ending, if_pos (by simp [h.depth, h.brace, h.ended]), h.brace]
  · refine .inr ⟨h, if_neg fun hcond => h ?_⟩
    simp only [Bool.or_false, Bool.and_eq_true, decide_eq_true_eq, Bool.not_eq_true',
      Bool.not_false, and_true] at hcond
    exact ⟨hcond.1.1, hcond.2, hcond.1.2⟩

/-- **One body that ends with its statement.** -/
theorem closeOne_quiet (h : p.spot.Quiet mode) (hbare : p.blocks.Bare) :
    Ensures (closeOne ⟨false, false⟩) p
      (fun r q => q.spot = p.spot ∧ p.blocks.Sheds q.blocks ∧ r = ending false false q.blocks)
      fun e _ => ¬e.IsRefusal := by
  rw [closeOne, ensures_ite, if_neg (by simp), ensures_bind, ensures_get, ensures_bind]
  refine closeInnermost_changes.imp ?_
  rintro - r ⟨hworks, hblocks⟩
  have hspot := spot_of_works hworks
  have hsheds : p.blocks.Sheds r.blocks := by
    rcases hblocks with hr | ⟨hr, -⟩
    · rw [hr]
      exact ⟨BlockStack.hasBrace_pop hbare.brace, .inr (BlockStack.depth_pop_lt hbare.depth)⟩
    · exact hr ▸ .refl
  have hnext (q : Pass) (hspot : q.spot = p.spot) (hq : p.blocks.Sheds q.blocks) :
      Ensures (closeNext false false) q (fun r q => q.spot = p.spot ∧ p.blocks.Sheds q.blocks ∧
        r = ending false false q.blocks) fun e _ => ¬e.IsRefusal :=
    ensures_of_ok (closeNext_eq false false q) ⟨hspot, hq, rfl⟩
  rw [closeAround, ensures_bind, ensures_get]
  dsimp only
  split
  · next hcond =>
    have hbrace : r.blocks.top.brace = false := by
      simp only [Bool.and_eq_true, Bool.or_eq_true, beq_iff_eq, Bool.not_eq_true'] at hcond
      rcases hcond.2 with heq | hbrace
      · rcases hsheds.depth with hr | hlt
        · exact hr ▸ hbare.brace
        · omega
      · exact hbrace
    refine (closeIf_quiet (hspot ▸ h)).bind ?_ fun _ _ => id
    rintro _ q ⟨rfl, hq, ended, hended⟩
    refine hnext q (hq.trans hspot) ?_
    rw [hended]
    exact hsheds.pop hbare.depth hbrace ended
  · exact hnext r hspot hsheds

/-- **All bodies that end with a statement.** -/
theorem closeBodies_quiet (bound : List γ) (h : p.spot.Quiet mode) (hbare : p.blocks.Bare) :
    Ensures (iterate closeOne bound ⟨false, false⟩) p
      (fun unused q => unused = false ∧ q.spot = p.spot ∧
        q.blocks.hasBrace = p.blocks.hasBrace ∧ q.blocks.depth < p.blocks.depth)
      fun e _ => ¬e.IsRefusal := by
  induction bound generalizing p with
  | nil =>
    rw [iterate]
    refine (closeOne_quiet h hbare).bind ?_ fun _ _ => id
    rintro _ q ⟨hspot, hsheds, rfl⟩
    rcases ending_cases q.blocks with ⟨-, hend⟩ | ⟨hq, hend⟩ <;> rw [hend]
    · exact not_isRefusal_fault _
    · exact ⟨rfl, hspot, hsheds.brace, hsheds.depth_lt hbare hq⟩
  | cons b bound ih =>
    rw [iterate]
    refine (closeOne_quiet h hbare).bind ?_ fun _ _ => id
    rintro _ q ⟨hspot, hsheds, rfl⟩
    rcases ending_cases q.blocks with ⟨hq, hend⟩ | ⟨hq, hend⟩ <;> rw [hend]
    · refine (ih (hspot ▸ h) hq).imp ?_
      rintro u r ⟨hu, hr, hbrace, hlt⟩
      exact ⟨hu, hr.trans hspot, hbrace.trans hsheds.brace,
        Nat.lt_of_lt_of_le hlt hsheds.depth_le⟩
    · exact ⟨rfl, hspot, hsheds.brace, hsheds.depth_lt hbare hq⟩

/-! ## An `if` that is still to be ended -/

/-- The first pass has left a mark where the second one ends an `if`. -/
theorem endIf_due (h : p.Partner (Beside μ V (Work.Due μ)) X) :
    Paired μ endIf p endIf X fun a b q Q => b = a ∧ q.Beside μ V (Work.Same μ) Q := by
  have hclear : Paired μ (modifyBlocks (·.setEnded false)) p (modifyBlocks (·.setEnded false)) X
      fun a b q Q => b = a ∧ q.Beside μ V (Work.Same μ) Q := by
    cases X with
    | none => exact h
    | some P =>
      refine ⟨rfl, h.spot, h.line, { h.work.same with blocks := ?_ }⟩
      change P.blocks.setEnded false = p.blocks.setEnded false
      rw [show p.blocks = P.blocks.setEnded true from h.work.blocks]
      rfl
  exact hclear.seq fun _ q Y hq => resolveExit_parallel q Y hq

/-! ## Bodies that end on both sides -/

theorem closeIfHere_lockstep (hμ : μ ≠ .strict) (outer : Bool) :
    Lockstep μ auto quit (closeIfHere outer) (closeIfHere outer) := by
  have hend : Lockstep μ auto quit (endIf >>= fun _ => pure false)
      (endIf >>= fun _ => pure false) :=
    endIf_parallel.bind fun _ => together_pure false
  refine closeBlock_parallel.bind fun _ p X h => paired_get ?_
  have hmode : (X.getD p).strictness = .strict ↔ p.strictness = .strict := by
    cases X with
    | none => rfl
    | some P =>
      have hwarn : p.strictness = .warn := h.spot.warn
      have hmode : P.strictness = μ := h.spot.mode
      simp [hwarn, hmode, hμ]
  simp only [hmode]
  split
  · exact hend p X h
  · refine (modifyBlocks_parallel _).bind (fun _ => lockstep_ifAt ?_ ?_) p X h
    · exact (lockstep_of_fine fine_elseBranch).bind fun _ => together_pure true
    · exact together_ite hend (together_pure false)

theorem closeIf_lockstep (hμ : μ ≠ .strict) (outer : Bool) :
    Lockstep μ auto quit (closeIf outer) (closeIf outer) :=
  Together.bind skipNewlines_abreast fun _ => closeIfHere_lockstep hμ outer

theorem closeNext_parallel (brace found : Bool) :
    Parallel μ V (closeNext brace found) (closeNext brace found) := by
  refine parallel_shared fun p P h => ?_
  rw [h.blocks]
  exact together_ite (together_pure _) (together_pure _)

section

variable (hμ : μ ≠ .strict)
include hμ

theorem closeAround_lockstep (c : Closing) (depth : Nat) :
    Lockstep μ auto quit (closeAround c depth) (closeAround c depth) := by
  refine parallel_shared fun p P h => ?_
  rw [h.blocks]
  dsimp only
  split
  · exact (closeIf_lockstep hμ _).bind fun found => closeNext_parallel _ found
  · exact closeNext_parallel _ false

theorem closeOne_lockstep (c : Closing) : Lockstep μ auto quit (closeOne c) (closeOne c) := by
  rw [closeOne]
  refine together_ite unexpected_abreast (parallel_shared fun p P h => ?_)
  rw [h.blocks]
  exact (closeInnermost_parallel _).bind fun _ => closeAround_lockstep hμ c _

theorem closeBodies_lockstep (brace : Bool) :
    Lockstep μ auto quit (closeBodies brace) (closeBodies brace) := by
  refine parallel_shared fun p P h => ?_
  rw [h.blocks]
  exact together_iterate (closeOne_lockstep hμ) _ _ (fun _ => rfl) _

theorem closeBehind_lockstep (brace : Bool) :
    Lockstep μ auto quit (closeBehind brace) (closeBehind brace) := by
  refine (closeBodies_lockstep hμ brace).bind fun unused => parallel_shared fun p P h => ?_
  rw [h.blocks]
  exact together_ite unexpected_abreast (together_pure _)

theorem endBody_lockstep (brace : Bool) : Lockstep μ auto quit (endBody brace) (endBody brace) := by
  rw [endBody]
  refine parallel_shared fun p P h => ?_
  rw [h.blocks]
  refine together_ite unexpected_abreast ?_
  dsimp only
  split
  · exact (lockstep_of_fine fine_closingBrace).bind fun _ => closeBehind_lockstep hμ brace
  · exact closeBehind_lockstep hμ brace

end

/-! ## Bodies that end for a strict pass -/

/-- Line feeds are skipped on the way from spots with `V` to spots with `V'`, and no `else` is
there. -/
structure Looking (V V' : Spot → Spot → Prop) : Prop where
  skip : ∀ p P : Pass, p.Beside .strict V (Work.Same .strict) P →
    Paired .strict skipNewlines p skipNewlines (some P) fun _ _ q Q =>
      q.Beside .strict V' (Work.Same .strict) Q ∧ q.blocks = p.blocks
  warn : ∀ x X, V' x X → x.strictness = .warn
  strict : ∀ x X, V' x X → X.strictness = .strict
  noElse : ∀ x X, V' x X → x.token.kind ≠ .keyword .elseBranch
  weaken : ∀ x X, V' x X → V x X

theorem looking_quiet : Looking Spot.BothQuiet Spot.BothQuiet where
  skip p P h := by
    change Agrees _ _ (skipNewlines p) (skipNewlines P)
    rw [skipNewlines_of_quiet h.spot.left, skipNewlines_of_quiet h.spot.right]
    exact ⟨h, rfl⟩
  warn _ _ h := h.left.mode
  strict _ _ h := h.right.mode
  noElse _ _ h := h.left.noElse
  weaken _ _ h := h

theorem skipWhile_stops (f : Token.Kind → Bool) :
    Accepts (skipWhile f) p fun _ q => f q.token.kind = false := by
  refine accepts_perToken (fun _ _ => True) (fun _ q _ => ?_) trivial
  simp only [skipStep, ensures_bind, ensures_kind, ensures_ite, ensures_pure]
  split
  · unfold Ensures
    split <;> trivial
  · next hq => simpa using hq

theorem looking_abreast (auto quit : Bool) :
    Looking (Spot.Abreast .strict auto quit) (Spot.Past auto quit) where
  skip p P h := by
    have hkeep : p.Beside .strict (Spot.Abreast .strict auto quit)
        (fun w W => w.Same .strict W ∧ w.blocks = p.blocks) P := ⟨h.spot, h.line, h.work, rfl⟩
    refine ((skipNewlines_abreast p (some P) hkeep).and_left (skipWhile_stops _)).mono ?_
    rintro _ _ q Q ⟨⟨-, hq⟩, hstop⟩
    have hnewline : q.token.kind ≠ .newline := by simpa using hstop
    exact ⟨⟨⟨hq.spot, hnewline⟩, hq.line, hq.work.1⟩, hq.work.2⟩
  warn _ _ h := h.abreast.warn
  strict _ _ h := h.abreast.mode
  noElse _ _ h := (h.abreast.clean rfl).2
  weaken _ _ h := h.abreast

/-- The strict pass ends the `if`. The first one does so, too, if an outer brace closes as well, and
otherwise leaves a mark. -/
theorem closeIfHere_paired (hV : Looking V V') (outer : Bool)
    (h : p.Beside .strict V' (Work.Same .strict) P) :
    Paired .strict (closeIfHere outer) p (closeIfHere outer) (some P) fun a b q Q =>
      a = false ∧ b = false ∧ q.blocks.depth = p.blocks.pop.depth ∧
        (q.Beside .strict V' (Work.Same .strict) Q ∨
          outer = false ∧ ∃ P', q.Beside .strict V' (Work.Due .strict) P' ∧
            endIf P' = .ok () Q) := by
  have hdue : (ifClosed p).Beside .strict V' (Work.Due .strict)
      { P with blocks := P.blocks.pop } := by
    refine ⟨h.spot, h.line, { h.work with blocks := rfl }, ?_⟩
    change p.blocks.pop.setEnded true = P.blocks.pop.setEnded true
    rw [show P.blocks = p.blocks from h.work.blocks]
  have hwarn : p.strictness ≠ .strict := by
    rw [show p.strictness = .warn from hV.warn _ _ h.spot]
    exact nofun
  change Agrees _ _ (closeIfHere outer p) (closeIfHere outer P)
  rw [closeIfHere_of_ne hwarn, closeIfHere_of_strict (hV.strict _ _ h.spot),
    lookForElse_of_ne (p := ifClosed p) (hV.noElse _ _ h.spot)]
  cases outer with
  | true =>
    have hend := (endIf_due (X := some { P with blocks := P.blocks.pop }) hdue).and_left
      endIf_blocks
    refine hend.bind (F := fun _ => pure false) fun _ _ q Y hq => paired_pure ?_
    cases Y with
    | none => exact hq
    | some Q =>
      refine ⟨rfl, rfl, ?_, .inl hq.1.2⟩
      rw [hq.2.2]
      rfl
  | false =>
    change Agrees _ _ (.ok false (ifClosed p)) ((endIf >>= fun _ => pure false) _)
    cases hend : endIf { P with blocks := P.blocks.pop } with
    | ok _ Q =>
      rw [bind_of_ok hend]
      exact ⟨rfl, rfl, rfl, .inr ⟨rfl, _, hdue, hend⟩⟩
    | error e Q =>
      simp only [Bind.bind, EStateM.bind, hend]
      exact ⟨rfl, .inr (endIf_blocks.error hend)⟩

theorem closeIf_paired (hV : Looking V V') (outer : Bool)
    (h : p.Partner (Beside .strict V (Work.Same .strict)) X) :
    Paired .strict (closeIf outer) p (closeIf outer) X fun a b q Q =>
      a = false ∧ b = false ∧ q.blocks.depth = p.blocks.pop.depth ∧
        (q.Beside .strict V' (Work.Same .strict) Q ∨
          outer = false ∧ ∃ P', q.Beside .strict V' (Work.Due .strict) P' ∧
            endIf P' = .ok () Q) := by
  cases X with
  | none =>
    exact paired_none (closeIf_lockstep Strictness.warn_ne_strict outer) h
  | some P =>
    refine (hV.skip p P h).bind (f := fun _ => closeIfHere outer) (F := fun _ => closeIfHere outer)
      fun _ _ q Y hq => ?_
    cases Y with
    | none =>
      exact paired_none (closeIfHere_lockstep Strictness.warn_ne_strict outer) hq
    | some Q =>
      have hhere := closeIfHere_paired hV outer hq.1
      rw [hq.2] at hhere
      exact hhere

/-- What comes of closing one body: the same on both sides, or the first pass waits for an `else`
where the second one has ended the `if`. -/
inductive EndsOne (V V' : Spot → Spot → Prop) (depth : Nat) :
    Closing ⊕ Bool → Closing ⊕ Bool → Pass → Pass → Prop
  | both {r : Closing ⊕ Bool} {q Q : Pass} (beside : q.Beside .strict V (Work.Same .strict) Q)
      (le : q.blocks.depth ≤ depth) (inner : ∀ c, r = .inl c → 1 < q.blocks.depth) :
      EndsOne V V' depth r r q Q
  | waits {P q Q : Pass} (due : q.Beside .strict V' (Work.Due .strict) P)
      (ends : endIf P = .ok () Q) (lt : q.blocks.depth < depth) :
      EndsOne V V' depth (.inr false) (ending false false Q.blocks) q Q

theorem closeNext_paired {depth : Nat} (brace : Bool)
    (h : p.Beside .strict V (Work.Same .strict) P) (hdepth : p.blocks.depth ≤ depth) :
    Paired .strict (closeNext brace false) p (closeNext brace false) (some P)
      (EndsOne V V' depth) := by
  change Agrees _ _ (closeNext brace false p) (closeNext brace false P)
  rw [closeNext_eq, closeNext_eq, show P.blocks = p.blocks from h.work.blocks]
  exact .both h hdepth fun c hc => (of_ending_inl hc).2.1

theorem closeAround_paired (hV : Looking V V') (c : Closing) (n : Nat) {depth : Nat}
    (h : p.Partner (Beside .strict V (Work.Same .strict)) X) (hdepth : p.blocks.depth ≤ depth)
    (hinner : 1 < depth) :
    Paired .strict (closeAround c n) p (closeAround c n) X (EndsOne V V' depth) := by
  cases X with
  | none =>
    exact paired_none (closeAround_lockstep Strictness.warn_ne_strict c n) h
  | some P =>
    refine paired_get ?_
    rw [show (Option.getD (some P) p).blocks = p.blocks from h.work.blocks]
    dsimp only
    split
    · refine (closeIf_paired hV _ h).bind fun a b q Y hq => ?_
      cases Y with
      | none => exact paired_none (closeNext_parallel _ a) hq
      | some Q =>
        obtain ⟨rfl, rfl, hpop, hq⟩ := hq
        have hlt : q.blocks.depth < depth := by
          rw [hpop, BlockStack.depth_pop]
          omega
        rcases hq with hq | ⟨houter, P', hdue, hend⟩
        · exact closeNext_paired _ ⟨hV.weaken _ _ hq.spot, hq.line, hq.work⟩ (Nat.le_of_lt hlt)
        · change Agrees _ _ (closeNext _ false q) (closeNext _ false Q)
          have hended : q.blocks.top.ifEnded = true := by
            rw [show q.blocks = P'.blocks.setEnded true from hdue.work.blocks]
            rfl
          rw [closeNext_eq, closeNext_eq, houter, ending_of_ifEnded hended]
          exact .waits hdue hend hlt
    · exact closeNext_paired _ h hdepth

theorem paired_unexpected_strict {T : α → α → Pass → Pass → Prop} :
    Paired .strict unexpected p unexpected X T := by
  have hstops (q : Pass) : ∃ e, (unexpected : Compile α) q = .error e q := by
    change ∃ e, (if q.token.kind = .eof then _ else _ : Compile α) q = _
    split <;> exact ⟨_, rfl⟩
  obtain ⟨e, he⟩ := hstops p
  cases X with
  | none =>
    rw [Paired, Ensures, he]
    trivial
  | some P =>
    obtain ⟨e', he'⟩ := hstops P
    rw [Paired, he, he']
    exact .inl rfl

theorem closeOne_paired (hV : Looking V V') (c : Closing)
    (h : p.Partner (Beside .strict V (Work.Same .strict)) X) (hdepth : 1 < p.blocks.depth) :
    Paired .strict (closeOne c) p (closeOne c) X (EndsOne V V' p.blocks.depth) := by
  have hle : Accepts (closeInnermost c.braced) p fun _ q => q.blocks.depth ≤ p.blocks.depth :=
    (ensures_self _).mono (fun _ _ => depth_of_closeInnermost) fun _ _ _ => trivial
  rw [closeOne]
  split
  · exact paired_unexpected_strict
  · refine paired_get ?_
    rw [show (X.getD p).blocks = p.blocks from (same_of_partner h).blocks]
    refine ((closeInnermost_parallel c.braced p X h).and_left hle).bind fun _ _ q Y hq => ?_
    cases Y with
    | none =>
      exact paired_none (closeAround_lockstep Strictness.warn_ne_strict c _) hq
    | some Q => exact closeAround_paired hV c _ (X := some Q) hq.1.2 hq.2 hdepth

end Compile

end DeskCalc
