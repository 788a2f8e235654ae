import DeskCalc.Proofs.Strictness.Chunk

/-!
# What strictness changes

A whole text is compiled under each strictness. With warnings it comes to the same as without them,
and a strict session accepts exactly the texts that have no warning (`strictness_conservative`). The
program is then the same as with warnings, but for the lines: where an `if` ends, a strict session
ends the bodies around it at once, and otherwise that is done when the next token shows that no
`else` follows.
-/

namespace DeskCalc

namespace Session

variable {o O : Except Stop (Status × Session)}

/-- End the input after a text with a status. -/
def finishWith (s : Session) (status : Status) : Except Stop (Status × Session) :=
  match s.finish with
  | (.error e, _) => .error e
  | (.ok (), s) => .ok (status, s)

/-- Compile a whole text, and end the input unless `quit` was met: the status of the text, and the
session afterwards. -/
def whole (options : Options) (source : String) : Except Stop (Status × Session) :=
  match (new options).compile source with
  | (.error e, _) => .error e
  | (.ok .quit, s) => .ok (.quit, s)
  | (.ok status, s) => s.finishWith status

open Compile Pass

variable {μ : Strictness} {limits : Limits} {options : Options} {source : String} {status : Status}
  {e : Stop} {q Q : Pass}

/-! ## Whole texts and their passes -/

theorem whole_of_error (h : chunk (Pass.start (new options) source) = .error e q) :
    whole options source = .error e := by
  obtain ⟨t, ht⟩ := compile_of_error h
  rw [whole, ht]

theorem whole_of_quit (h : chunk (Pass.start (new options) source) = .ok .quit q) :
    whole options source = .ok (.quit, q.toSession) := by
  rw [whole, compile_of_ok h]

theorem whole_of_ok (h : chunk (Pass.start (new options) source) = .ok status q)
    (hstatus : status ≠ .quit) : whole options source = q.toSession.finishWith status := by
  rw [whole, compile_of_ok h]
  cases status with
  | quit => exact absurd rfl hstatus
  | ready | incomplete => rfl

theorem finishWith_of_ok {s : Session} (h : inputEnd (Pass.start s "") = .ok () q) :
    s.finishWith status = .ok (status, q.toSession.commit) := by
  simp only [finishWith, finish, run, h]

theorem finishWith_of_error {s : Session} (h : inputEnd (Pass.start s "") = .error e q) :
    s.finishWith status = .error e := by
  cases e <;> simp only [finishWith, finish, run, h]

theorem consistent_of_chunk (h : chunk (Pass.start (new options) source) = .ok status q) :
    q.toSession.Consistent False := by
  have hs := (consistent_compile (consistent_new options) source False.elim).1
  rw [compile_of_ok h] at hs
  exact hs

theorem isRefusal_of_chunk (h : chunk (Pass.start (new options) source) = .error e q) :
    e.IsRefusal := by
  obtain ⟨t, ht⟩ := compile_of_error h
  exact (isRefusal_of_compile (consistent_new options) False.elim (congrArg Prod.fst ht)).1

theorem isRefusal_of_inputEnd {s : Session} (hs : s.Consistent False)
    (h : inputEnd (Pass.start s "") = .error e q) : e.IsRefusal := by
  have herror : s.finish.1 = .error e := by cases e <;> simp only [finish, run, h]
  exact isRefusal_of_finish hs herror

/-! ## Two strictnesses -/

/-- The outcomes of a text with warnings and under `μ`. -/
def Agree (μ : Strictness) : Except Stop (Status × Session) → Except Stop (Status × Session) → Prop
  | .ok r, .ok R => (μ ≠ .strict → R.1 = r.1) ∧
      μ.Same Program.unlined r.2.program R.2.program ∧ (μ = .strict → r.2.warnings = [])
  | .ok r, .error _ => μ = .strict ∧ r.2.warnings ≠ []
  | .error _, .ok _ => False
  | .error e, .error e' => μ = .strict ∨ e' = e

theorem level_start (μ : Strictness) (limits : Limits) (source : String) :
    (Pass.start (new ⟨.warn, limits⟩) source).Level μ false false
      (Pass.start (new ⟨μ, limits⟩) source) :=
  beside_of
    { warn := rfl, mode := rfl, auto := ⟨rfl, rfl⟩, quit := ⟨rfl, rfl⟩, token := rfl
      previous := rfl, upcoming := abreast_readTokens μ source, clean := fun _ => ⟨rfl, nofun⟩ }
    { program := .refl _, blocks := rfl, exits := rfl, continues := rfl, operators := rfl
      target := rfl }

theorem advance_start_empty (s : Session) :
    Accepts advance (Pass.start s "") fun _ q => q.token.kind ≠ .newline := by
  have hread (mode : Strictness) : ∃ t, readTokens mode "" = [⟨t, [], none⟩] ∧ t.kind = .eof := by
    cases mode <;> exact ⟨_, rfl, rfl⟩
  obtain ⟨t, ht, heof⟩ := hread s.strictness
  rw [Accepts, advance, ensures_bind, ensures_get, show (Pass.start s "").upcoming = _ from ht]
  change t.kind ≠ .newline
  rw [heof]
  simp

/-- Where the input ends both sessions have come to the same place. -/
theorem abreast_start {auto quit : Bool} (h : q.spot.Abreast μ auto quit Q.spot) :
    (Pass.start q.toSession "").spot.Abreast μ auto false (Pass.start Q.toSession "").spot where
  warn := h.warn
  mode := h.mode
  auto := h.auto
  quit := ⟨rfl, rfl⟩
  token := rfl
  previous := rfl
  upcoming := by
    change Reading.Abreast μ (readTokens q.strictness "") (readTokens Q.strictness "")
    rw [show q.strictness = .warn from h.warn, show Q.strictness = μ from h.mode]
    exact abreast_readTokens μ ""
  clean := fun hμ => ⟨(h.clean hμ).1, nofun⟩

theorem warnings_commit (s : Session) : s.commit.warnings = s.warnings := by
  unfold commit
  split <;> rfl

theorem inputEnd_agrees (h : Ready μ q Q) :
    Agrees μ (fun _ _ r R => ∃ auto, r.Level μ auto false R) (inputEnd (Pass.start q.toSession ""))
      (inputEnd (Pass.start Q.toSession "")) := by
  rcases h with ⟨auto, h⟩ | ⟨rfl, d, h⟩
  · exact (inputEnd_paired (abreast_start h.spot) (.inl h.work) (advance_start_empty _)).mono
      fun _ _ _ _ hr => ⟨auto, hr⟩
  · exact (inputEnd_paired (abreast_start h.spot.abreast) (.inr ⟨rfl, h.lags⟩)
      (advance_start_empty _)).mono fun _ _ _ _ hr => ⟨false, hr⟩

theorem agree_finishWith {s S : Status} (hq : q.toSession.Consistent False)
    (hQ : Q.toSession.Consistent False) (h : Ready μ q Q) (hstatus : μ ≠ .strict → S = s) :
    Agree μ (q.toSession.finishWith s) (Q.toSession.finishWith S) := by
  have hend := inputEnd_agrees h
  cases hp : inputEnd (Pass.start q.toSession "") with
  | ok _ r =>
    rw [finishWith_of_ok hp]
    cases hP : inputEnd (Pass.start Q.toSession "") with
    | ok _ R =>
      rw [finishWith_of_ok hP]
      simp only [hp, hP, Agrees] at hend
      obtain ⟨auto, hr⟩ := hend
      refine ⟨hstatus, ?_, fun hμ => ?_⟩
      · rw [program_commit, program_commit]
        exact hr.work.program
      · rw [warnings_commit]
        exact (hr.spot.clean hμ).1
    | error e R =>
      rw [finishWith_of_error hP]
      simp only [hp, hP, Agrees] at hend
      refine ⟨hend.1, ?_⟩
      rw [warnings_commit]
      exact hend.2.resolve_right fun hfault => hfault (isRefusal_of_inputEnd hQ hP)
  | error e r =>
    rw [finishWith_of_error hp]
    cases hP : inputEnd (Pass.start Q.toSession "") with
    | ok _ R =>
      simp only [hp, hP, Agrees] at hend
      exact absurd (isRefusal_of_inputEnd hq hp) hend.2
    | error e' R =>
      rw [finishWith_of_error hP]
      simp only [hp, hP, Agrees] at hend
      exact hend

theorem inputEnd_warned {p : Pass} (h : p.warnings ≠ []) :
    Accepts inputEnd p fun _ q => q.warnings ≠ [] := by
  have hend : Lockstep .warn false false inputEnd inputEnd := by
    refine advance_abreast.bind fun _ => ?_
    refine (closeAll_lockstep Strictness.warn_ne_strict).bind fun _ => ?_
    exact together_ite (together_pure ()) refuseHere_abreast
  exact hend p none h

/-- A warning of a text is still there at the end of the input. -/
theorem agree_of_warned (hstrict : μ = .strict) (hq : q.warnings ≠ []) :
    Agree μ (q.toSession.finishWith status) (.error e) := by
  cases hp : inputEnd (Pass.start q.toSession "") with
  | ok _ r =>
    rw [finishWith_of_ok hp]
    refine ⟨hstrict, ?_⟩
    rw [warnings_commit]
    have hstart : (Pass.start q.toSession "").warnings ≠ [] := hq
    exact (inputEnd_warned hstart).ok hp
  | error e' r =>
    rw [finishWith_of_error hp]
    exact .inl hstrict

/-- **A whole text** with warnings and under `μ`. -/
theorem whole_agree (μ : Strictness) (limits : Limits) (source : String) :
    Agree μ (whole ⟨.warn, limits⟩ source) (whole ⟨μ, limits⟩ source) := by
  have hchunk : Agrees μ (Finished μ) (chunk (Pass.start (new ⟨.warn, limits⟩) source))
      (chunk (Pass.start (new ⟨μ, limits⟩) source)) := chunk_paired (level_start μ limits source)
  cases hp : chunk (Pass.start (new ⟨.warn, limits⟩) source) with
  | ok s q =>
    cases hP : chunk (Pass.start (new ⟨μ, limits⟩) source) with
    | ok S Q =>
      simp only [hp, hP, Agrees] at hchunk
      obtain ⟨hstatus, ⟨rfl, rfl, auto, h⟩ | ⟨hs, hS, h⟩⟩ := hchunk
      · rw [whole_of_quit hp, whole_of_quit hP]
        exact ⟨hstatus, h.work.program, fun hμ => (h.spot.clean hμ).1⟩
      · rw [whole_of_ok hp hs, whole_of_ok hP hS]
        exact agree_finishWith (consistent_of_chunk hp) (consistent_of_chunk hP) h hstatus
    | error e Q =>
      simp only [hp, hP, Agrees] at hchunk
      have hwarned := hchunk.2.resolve_right fun hfault => hfault (isRefusal_of_chunk hP)
      rw [whole_of_error hP]
      by_cases hs : s = .quit
      · subst hs
        rw [whole_of_quit hp]
        exact ⟨hchunk.1, hwarned⟩
      · rw [whole_of_ok hp hs]
        exact agree_of_warned hchunk.1 hwarned
  | error e q =>
    rw [whole_of_error hp]
    cases hP : chunk (Pass.start (new ⟨μ, limits⟩) source) with
    | ok S Q =>
      simp only [hp, hP, Agrees] at hchunk
      exact absurd (isRefusal_of_chunk hp) hchunk.2
    | error e' Q =>
      simp only [hp, hP, Agrees] at hchunk
      rw [whole_of_error hP]
      exact hchunk

/-- Neither the error nor the status nor the program depends on recording warnings. -/
theorem Agree.map_eq (h : Agree μ o O) (hμ : μ ≠ .strict) :
    (O.map fun r => (r.1, r.2.program)) = o.map fun r => (r.1, r.2.program) := by
  cases o with
  | ok r =>
    cases O with
    | ok R => simp only [Except.map, h.1 hμ, h.2.1.eq hμ]
    | error e => exact absurd h.1 hμ
  | error e =>
    cases O with
    | ok R => exact h.elim
    | error e' =>
      rw [Or.resolve_left h hμ]

/-- A strict session accepts what is accepted with no warning recorded. -/
theorem Agree.ok_iff (h : Agree .strict o O) (P : Program) :
    (∃ R, O = .ok R ∧ R.2.program.unlined = P) ↔
      ∃ r, o = .ok r ∧ r.2.warnings = [] ∧ r.2.program.unlined = P := by
  constructor
  · rintro ⟨R, rfl, rfl⟩
    cases o with
    | ok r => exact ⟨r, rfl, h.2.2 rfl, h.2.1.forgets.symm⟩
    | error e => exact h.elim
  · rintro ⟨r, rfl, hnone, rfl⟩
    cases O with
    | ok R => exact ⟨R, rfl, h.2.1.forgets⟩
    | error e => exact absurd hnone h.2

/-- **Strictness is conservative.** Whether warnings are recorded changes neither the error of a
text nor its status nor its program. A strict session accepts exactly the texts that are accepted
with no warning recorded, and makes the same program of them, lines apart. -/
theorem strictness_conservative (limits : Limits) (source : String) :
    ((whole ⟨.lenient, limits⟩ source).map fun r => (r.1, r.2.program)) =
        ((whole ⟨.warn, limits⟩ source).map fun r => (r.1, r.2.program)) ∧
      ∀ P : Program,
        (∃ R, whole ⟨.strict, limits⟩ source = .ok R ∧ R.2.program.unlined = P) ↔
          ∃ r, whole ⟨.warn, limits⟩ source = .ok r ∧ r.2.warnings = [] ∧
            r.2.program.unlined = P :=
  ⟨(whole_agree .lenient limits source).map_eq nofun, (whole_agree .strict limits source).ok_iff⟩

end Session

end DeskCalc
