import DeskCalc.Proofs.Answers

/-!
# Definitions that are given up

A definition of a function takes the place of an earlier one at its header, before anything of its
body is known. In a session that can be reached, a function that has a definition and receives no
code has been defined to its end (`Session.Furnished`). A call that gives up what is in progress
leaves all of these functions as they are; the function that is being defined is left without a
definition, also if it had one that was complete (`Session.givesUp_functions`,
`Session.unfinishedRedefinition_lost`).
-/

namespace DeskCalc

namespace Draft

variable {d e : Draft} {anew : String → Prop} {n i : Nat} {f : Function}

theorem Reworks.defined (h : d.Reworks e) (hf : d.program.function? i = some f)
    (hdefined : f.defined = true) : ∃ g, e.program.function? i = some g ∧ g.defined = true := by
  by_cases hi : i = d.target
  · subst hi
    obtain ⟨f', g, -, hf', hg, -, -, -, -, hkept⟩ := h.function
    cases hf.symm.trans hf'
    rw [function?, h.target] at hg
    exact ⟨g, hg, hkept hdefined⟩
  · exact ⟨f, h.others i f hi hf, hdefined⟩

theorem Finishes.defined (h : d.Finishes e) (hf : d.program.function? i = some f)
    (hdefined : f.defined = true) : ∃ g, e.program.function? i = some g ∧ g.defined = true := by
  obtain ⟨f', P, -, -, hP, rfl⟩ := h
  by_cases hi : i = d.target
  · subst hi
    obtain ⟨f'', c, hf'', -, hPf⟩ := hP.written
    cases hf.symm.trans hf''
    exact ⟨_, hPf, hdefined⟩
  · exact ⟨f, hP.others i f hi hf, hdefined⟩

/-- A function that begins anew still counts as defined, although its code is gone. -/
theorem Begins.defined (h : d.Begins anew e) (hf : d.program.function? i = some f)
    (hdefined : f.defined = true) : ∃ g, e.program.function? i = some g ∧ g.defined = true := by
  cases h with
  | @intro id f' _ _ _ _ hf' _ isVoid =>
    rw [Program.function?_modifyFunction]
    split
    · next hi =>
      subst hi
      cases hf.symm.trans hf'
      exact ⟨_, congrArg _ hf, hdefined⟩
    · exact ⟨f, hf, hdefined⟩

theorem Edits.defined (h : d.Edits anew n e) (hf : d.program.function? i = some f)
    (hdefined : f.defined = true) : ∃ g, e.program.function? i = some g ∧ g.defined = true := by
  have hsteps := h.steps
  clear h
  induction hsteps with
  | refl => exact ⟨f, hf, hdefined⟩
  | tail _ hstep ih =>
    obtain ⟨g, hg, hg'⟩ := ih
    rcases hstep with hstep | hstep | hstep <;> exact hstep.defined hg hg'

/-- From `d` to `e` no definition got lost, and what does not receive code in `e` is as it was or
has been defined to its end. -/
structure Furthers (d e : Draft) : Prop where
  retains : d.Retains (fun _ => True) e
  defined : ∀ i f, d.program.function? i = some f → f.defined = true →
    ∃ g, e.program.function? i = some g ∧ g.defined = true

theorem Furthers.refl (d : Draft) : d.Furthers d :=
  ⟨.refl d, fun _ f hf hdefined => ⟨f, hf, hdefined⟩⟩

theorem Furthers.edits {e' : Draft} (h : d.Furthers e) (h' : e.Edits anew n e') :
    d.Furthers e' := by
  refine ⟨h.retains.trans (h'.retains.mono fun _ _ => trivial), fun i f hf hdefined => ?_⟩
  obtain ⟨g, hg, hg'⟩ := h.defined i f hf hdefined
  exact h'.defined hg hg'

end Draft

namespace Session

variable {s t failed : Session} {m : Function} {texts : String → Prop} {c : Call}

/-- Every function of the source that has a definition and receives no code returns at its end. -/
def Furnished (s : Session) : Prop :=
  ∀ i f, Program.answerId < i → i ≠ s.target → s.program.function? i = some f →
    f.defined = true → f.Returns

theorem Furnished.furthers (h : s.Furnished) (hst : s.draft.Furthers t.draft) : t.Furnished := by
  intro i f hi htarget hf hdefined
  have hmain : i ≠ Program.mainId := Nat.ne_of_gt (Nat.zero_lt_of_lt hi)
  rcases hst.retains.others i f hmain htarget hf with ⟨hold, hsame⟩ | ⟨hreturns, -⟩ | ⟨-, hempty⟩
  · exact h i f hi hold hsame hdefined
  · exact hreturns
  · rw [hempty] at hdefined
    cases hdefined

/-- Giving up a definition leaves no definition behind, so that nothing incomplete counts. -/
theorem Furnished.reset (h : s.Furnished) : s.reset.Furnished := by
  rintro i f hi - hf hdefined
  have hmain : i ≠ Program.mainId := Nat.ne_of_gt (Nat.zero_lt_of_lt hi)
  rw [function?_reset s hmain] at hf
  split at hf
  · obtain ⟨k, -, rfl⟩ := Option.map_eq_some_iff.1 hf
    cases hdefined
  · next htarget => exact h i f hi htarget hf hdefined

theorem Furnished.compileAnswer (h : s.Furnished) (hmain : s.target = Program.mainId)
    (text : String) : (s.compileAnswer text).2.Furnished := by
  obtain ⟨is, Q, a, hQ, hprogram, -⟩ := program_compileAnswer s text
  rintro i f hi - hf hdefined
  have hanswer : i ≠ Program.answerId := Nat.ne_of_gt hi
  have htarget : i ≠ s.target := hmain ▸ Nat.ne_of_gt (Nat.zero_lt_of_lt hi)
  rw [hprogram, Program.function?_answer _ _ hanswer] at hf
  cases hk : s.clearAnswer.program.function? i with
  | none =>
    rw [hQ.fresh i f hk hf] at hdefined
    cases hdefined
  | some k =>
    cases (hQ.others i k hanswer hk).symm.trans hf
    rw [clearAnswer, Program.function?_answer _ _ hanswer] at hk
    exact h i f hi htarget hk hdefined

/-! ## Calls -/

theorem chunk_furthers (h : s.Tracks m) (text : String) :
    Compile.Ensures Compile.chunk (Pass.start s text) (fun _ q => s.draft.Furthers q.draft)
      (fun e q => e.IsRefusal → s.draft.Furthers q.draft) :=
  Compile.chunk_keeps (fun _ _ _ hd => hd.edits) (fun _ _ _ _ hd => hd.edits)
    (fun _ _ _ hd => ⟨{ hd.retains with }, hd.defined⟩) (h.steady text) (by simp [Pass.start])
    (.refl s.draft)

theorem inputEnd_furthers (h : s.Tracks m) :
    Compile.Ensures Compile.inputEnd (Pass.start s "") (fun _ q => s.draft.Furthers q.draft)
      (fun e q => e.IsRefusal → s.draft.Furthers q.draft) := by
  have hedits := Compile.inputEnd_edits (fun _ => False) (h.steady "") (by simp [Pass.start])
  refine hedits.mono (fun _ q hq => ?_) ?_
  · exact (Draft.Furthers.refl _).edits hq.2
  · rintro e q ⟨-, n, hn⟩ _
    exact (Draft.Furthers.refl _).edits hn

end Session

/-- The call gives up what is in progress in `s`, and at that moment the session is the second
one. -/
inductive Call.GivesUp (s : Session) : Call → Session → Prop
  | compile {text : String} {e : Stop} (h : (s.compile text).1 = .error e) :
      GivesUp s (.compile text) (s.run text Compile.chunk).2
  | finish {e : Stop} (h : s.finish.1 = .error e) :
      GivesUp s .finish (s.run "" Compile.inputEnd).2
  | reset : GivesUp s .reset s

namespace Session

variable {s t failed : Session} {m : Function} {texts : String → Prop} {c : Call}

/-- What is in progress is given up by going back. -/
theorem run_of_givesUp (h : s.Tracks m) (hc : c.GivesUp s failed) :
    (c.run s).2 = failed.reset ∧ Recoverable False failed ∧ s.draft.Furthers failed.draft := by
  cases hc with
  | @compile text e he =>
    rw [Call.run, run]
    rcases compile_cases h.consistent False.elim with ⟨_, q, -, heq⟩ | ⟨d, q, hm, hrec, heq⟩ <;>
      rw [heq] at he ⊢
    · cases he
    · rw [hm]
      exact ⟨rfl, hrec, (chunk_furthers h text).error hm ⟨d, rfl⟩⟩
  | @finish e he =>
    rw [Call.run, run]
    rcases finish_cases h.consistent with ⟨q, -, heq⟩ | ⟨d, q, hm, hrec, heq⟩ <;> rw [heq] at he ⊢
    · cases he
    · rw [hm]
      exact ⟨rfl, hrec, (inputEnd_furthers h).error hm ⟨d, rfl⟩⟩
  | reset => exact ⟨rfl, h.consistent.recoverable, .refl _⟩

theorem furnished_compile (h : s.Tracks m) (hs : s.Furnished) (text : String) :
    (s.compile text).2.Furnished := by
  have hchunk := chunk_furthers h text
  rcases compile_cases h.consistent False.elim with ⟨status, q, hq, heq⟩ | ⟨d, q, hq, -, heq⟩ <;>
    rw [heq]
  · exact hs.furthers (hchunk.ok hq)
  · exact (hs.furthers (hchunk.error hq ⟨d, rfl⟩)).reset

theorem furnished_finish (h : s.Tracks m) (hs : s.Furnished) : s.finish.2.Furnished := by
  have hend := inputEnd_furthers h
  rcases finish_cases h.consistent with ⟨q, hq, heq⟩ | ⟨d, q, hq, -, heq⟩ <;> rw [heq]
  · have hfurnished := hs.furthers (hend.ok hq)
    unfold commit
    split
    · exact hfurnished
    · exact hfurnished
  · exact (hs.furthers (hend.error hq ⟨d, rfl⟩)).reset

/-- **In a session that can be reached nothing incomplete counts as defined**, except the function
that is being defined. -/
theorem History.furnished (h : s.History texts m) : s.Furnished := by
  induction h with
  | new options =>
    intro i f hi _ hf hdefined
    rcases i with _ | _ | i
    · cases hi
    · exact absurd hi (Nat.lt_irrefl _)
    · have hnone : (Session.new options).program.function? (i + 2) = none := rfl
      cases hnone.symm.trans hf
  | @call s m h c hc ih =>
    cases c with
    | compile text => exact furnished_compile h.tracks ih text
    | finish => exact furnished_finish h.tracks ih
    | reset => exact ih.reset
    | takeWarnings => exact ih
    | compileAnswer text => exact ih.compileAnswer hc.2 text

/-- **What giving up a definition does to the functions of the source.** A function that has a
definition and receives no code has been defined to its end. If a call gives up what is in progress,
every such function keeps its code, its labels, its locals, the number of its parameters and whether
it is void. But the function whose definition is given up is left without any definition, and
nothing remains of an earlier one. No answer has come inside a definition. -/
theorem givesUp_functions (h : s.History texts m) (hc : c.GivesUp s failed) {id : Nat}
    (hid : Program.answerId < id) {f : Function} (hf : s.program.function? id = some f)
    (hdefined : f.defined = true) :
    (id ≠ s.target → f.Complete) ∧
      (id ≠ failed.target → ∃ g, failed.program.function? id = some g ∧ g.Complete ∧
        (c.run s).2.program.function? id = some g) ∧
      (id = failed.target → (c.run s).2.program.function? id = some { name := f.name }) := by
  have hs := h.tracks
  have hmain : id ≠ Program.mainId := Nat.ne_of_gt (Nat.zero_lt_of_lt hid)
  obtain ⟨hrun, hrec, hfurthers⟩ := run_of_givesUp hs hc
  have hfurnished := h.furnished
  refine ⟨fun htarget => ?_, fun htarget => ?_, fun htarget => ?_⟩
  · have hset := hs.consistent.recoverable.others id f htarget hmain hf
    exact hset.complete (hfurnished id f hid htarget hf hdefined)
  · obtain ⟨g, hg, hg'⟩ := hfurthers.defined id f hf hdefined
    have hset := hrec.others id g htarget hmain hg
    have hreturns := hfurnished.furthers hfurthers id g hid htarget hg hg'
    refine ⟨g, hg, hset.complete hreturns, ?_⟩
    rw [hrun, function?_reset failed hmain, if_neg htarget]
    exact hg
  · obtain ⟨g, hg, hname⟩ := hfurthers.retains.grows.names id f hf
    have hg' : failed.program.function? id = some g := hg
    rw [hrun, function?_reset failed hmain, if_pos htarget, hg', ← hname]
    rfl

/-- Two functions are defined, and one of them is called. -/
def twoFunctions : Call :=
  .compile "define f(x) \x7b return (x + 1) \x7d\ndefine void g(a[]) \x7b print a[0] \x7d\nf(2)\n"

/-- The session in which both definitions are complete. -/
def bothDefined : Session := (twoFunctions.run (new {})).2

/-- One function gets a new definition, and that of the other one breaks off. -/
def brokenOff : String := "define f(y) \x7b return (y) \x7d\ndefine g() \x7b\nwhile (1) \x7b\n)\n"

theorem brokenOff_functions :
    ∃ m failed f g, bothDefined.History (fun _ => True) m ∧
      (Call.compile brokenOff).GivesUp bothDefined failed ∧
      bothDefined.program.function? 2 = some f ∧ f.defined = true ∧
      bothDefined.program.function? 3 = some g ∧ g.defined = true ∧
      bothDefined.target = Program.mainId ∧ failed.target = 3 ∧ f.Complete ∧ g.Complete ∧
      (∃ k, ((Call.compile brokenOff).run bothDefined).2.program.function? 2 = some k ∧
        k.Complete) ∧
      ((Call.compile brokenOff).run bothDefined).2.program.function? 3 =
        some { name := g.name } := by
  have hhistory : bothDefined.History (fun _ => True) _ :=
    .call (c := twoFunctions) (.new {}) trivial
  have hmain : bothDefined.target = Program.mainId := by decide +kernel
  have hdefined : (bothDefined.program.function? 2).map (·.defined) = some true ∧
      (bothDefined.program.function? 3).map (·.defined) = some true := by decide +kernel
  have hfailed : (bothDefined.compile brokenOff).1.toOption = none := by decide +kernel
  have htarget : (bothDefined.run brokenOff Compile.chunk).2.target = 3 := by decide +kernel
  obtain ⟨f, hf, hfdefined⟩ := Option.map_eq_some_iff.1 hdefined.1
  obtain ⟨g, hg, hgdefined⟩ := Option.map_eq_some_iff.1 hdefined.2
  cases he : (bothDefined.compile brokenOff).1 with
  | ok status =>
    rw [he] at hfailed
    cases hfailed
  | error e =>
    have hgives := Call.GivesUp.compile he
    obtain ⟨hfcomplete, hkept, -⟩ := givesUp_functions hhistory hgives (by decide) hf hfdefined
    obtain ⟨hgcomplete, -, hlost⟩ := givesUp_functions hhistory hgives (by decide) hg hgdefined
    have hother : 2 ≠ (bothDefined.run brokenOff Compile.chunk).2.target := by
      rw [htarget]
      decide
    obtain ⟨k, -, hk, hrun⟩ := hkept hother
    have hne (n : Nat) : n + 1 ≠ bothDefined.target := hmain ▸ Nat.succ_ne_zero n
    exact ⟨_, _, f, g, hhistory, hgives, hf, hfdefined, hg, hgdefined, hmain, htarget,
      hfcomplete (hne 1), hgcomplete (hne 2), ⟨k, hrun, hk⟩, hlost htarget.symm⟩

/-- A function with a complete definition. -/
def sevenDefined : Session := ((new {}).compile "define f() \x7b return (7) \x7d\n").2

/-- A new definition of the function has begun. -/
def redefining : Session := (sevenDefined.compile "define f(x) \x7b\n").2

/-- Whether the new definition is refused in its header or in its body, left open at the end of the
input, or given up on request: the earlier definition of the function is lost each time. -/
theorem unfinishedRedefinition_lost :
    (sevenDefined.program.function? 2).map (fun f => (f.defined, f.code.opcodes)) =
        some (true, [.num, .ret, .ret0]) ∧
      ∀ t ∈ [(sevenDefined.compile "define f(x x\n").2, (redefining.compile "return (x\n").2,
        redefining.finish.2, redefining.reset], t.program.function? 2 = some { name := "f" } := by
  decide +kernel

end Session

end DeskCalc
