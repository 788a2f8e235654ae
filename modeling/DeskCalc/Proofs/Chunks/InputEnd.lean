import DeskCalc.Proofs.Strictness.Chunk

/-!
# The end of the input

At the end of the input every body without a brace ends, so that the input is refused there only if
a brace is open (`closeAll_of_braceless`). Two sessions that are the same but for lines come to the
same end, and to the same program if they are taken back.
-/

namespace DeskCalc

open Pass

variable {p P q : Pass} {mode : Strictness} {s t : Session}

namespace Compile

/-! ## Bodies without braces -/

/-- What has been closed at a quiet token. -/
structure Shrinks (p q : Pass) : Prop where
  spot : q.spot = p.spot
  brace : q.blocks.hasBrace = p.blocks.hasBrace

theorem endBody_quiet (h : p.spot.Quiet mode) (hbare : p.blocks.Bare) :
    Ensures (endBody false) p (fun _ q => Shrinks p q ∧ q.blocks.depth < p.blocks.depth)
      fun e _ => ¬e.IsRefusal := by
  rw [Ensures, endBody_false hbare.depth]
  change Ensures (closeBehind false) p _ _
  rw [closeBehind, closeBodies, bind_assoc, ensures_bind, ensures_get]
  dsimp only
  rw [hbare.brace]
  refine (closeBodies_quiet p.blocks.toList h hbare).bind ?_ fun _ _ => id
  rintro _ q ⟨rfl, hspot, hbrace, hlt⟩
  rw [ensures_bind, ensures_get, Bool.and_false]
  exact ⟨⟨hspot, hbrace⟩, hlt⟩

/-- What one repetition of `closeAll` comes to. -/
def Rests (p : Pass) (r : Unit ⊕ Bool) (q : Pass) : Prop :=
  Shrinks p q ∧
    ∀ all, r = .inr all → q.blocks.depth ≤ 1 ∧ q.blocks.top.ifEnded = false ∧ all = q.blocks.isIdle

theorem closeAllBody_quiet (h : p.spot.Quiet mode) (hbrace : p.blocks.hasBrace = false)
    (hended : p.blocks.top.ifEnded = false) :
    Ensures (closeAllBody p.blocks.depth) p (Rests p) fun e _ => ¬e.IsRefusal := by
  rw [closeAllBody, ensures_ite]
  split
  · next hdepth =>
    refine (endBody_quiet h ⟨hdepth, brace_of_hasBrace hbrace, hended⟩).bind ?_ fun _ _ => id
    rintro - q ⟨hq, hlt⟩
    rw [ensures_bind, ensures_get, ensures_ite, if_neg (Nat.not_le.2 hlt)]
    exact ⟨hq, by simp⟩
  · exact ⟨⟨rfl, rfl⟩, by simp⟩

theorem closeAllStep_quiet (h : p.spot.Quiet mode) (hbrace : p.blocks.hasBrace = false) :
    Ensures (closeAllStep ()) p (Rests p) fun e _ => ¬e.IsRefusal := by
  rw [Ensures, closeAllStep_eq]
  by_cases hopen : (p.blocks.depth > 1 || p.blocks.top.ifEnded) = true
  · rw [if_pos hopen]
    by_cases hended : p.blocks.top.ifEnded = true
    · rw [if_pos hended]
      refine endIf_blocks.bind ?_ fun _ _ => id
      rintro - q ⟨hspot, hblocks⟩
      have hdepth : q.blocks.depth = p.blocks.depth := by
        rw [hblocks]
        rfl
      have hqbrace : q.blocks.hasBrace = p.blocks.hasBrace := by
        rw [hblocks]
        rfl
      rw [← hdepth]
      refine (closeAllBody_quiet (hspot ▸ h) (hqbrace.trans hbrace) (by rw [hblocks]; rfl)).imp ?_
      rintro r t ⟨ht, hrest⟩
      exact ⟨⟨ht.spot.trans hspot, ht.brace.trans hqbrace⟩, hrest⟩
    · rw [if_neg hended]
      exact closeAllBody_quiet h hbrace (by simpa using hended)
  · rw [if_neg hopen]
    simp only [Bool.or_eq_true, decide_eq_true_eq, not_or, Bool.not_eq_true] at hopen
    refine ⟨⟨rfl, rfl⟩, ?_⟩
    rintro _ ⟨⟩
    exact ⟨Nat.not_lt.1 hopen.1, hopen.2, rfl⟩

theorem closeAllLoop_quiet {γ : Type} (bound : List γ) (h : p.spot.Quiet mode)
    (hbrace : p.blocks.hasBrace = false) :
    Ensures (iterate closeAllStep bound ()) p (fun all => Rests p (.inr all))
      fun e _ => ¬e.IsRefusal := by
  induction bound generalizing p with
  | nil =>
    rw [iterate]
    refine (closeAllStep_quiet h hbrace).bind ?_ fun _ _ => id
    rintro (_ | all) q hq
    · exact not_isRefusal_fault _
    · exact hq
  | cons b bound ih =>
    rw [iterate]
    refine (closeAllStep_quiet h hbrace).bind ?_ fun _ _ => id
    rintro (_ | all) q hq
    · refine (ih (hq.1.spot ▸ h) (hq.1.brace.trans hbrace)).imp ?_
      rintro all r ⟨hr, hrest⟩
      exact ⟨⟨hr.spot.trans hq.1.spot, hr.brace.trans hq.1.brace⟩, hrest⟩
    · exact hq

theorem isIdle_of_nested {blocks : BlockStack} (h : Nested blocks.toList) (hdepth : blocks.depth ≤ 1)
    (hended : blocks.top.ifEnded = false) : blocks.isIdle = true := by
  rcases blocks with ⟨top, _ | ⟨b, below⟩⟩
  · cases h with
    | outermost ifEnded =>
      subst hended
      rfl
  · simp [BlockStack.depth] at hdepth

/-- **Without open braces everything is closed at the end of the input.** -/
theorem closeAll_of_braceless {B : Prop} (h : p.Steady B) (hquiet : p.spot.Quiet mode)
    (hbrace : p.blocks.hasBrace = false) : ∃ q, closeAll p = .ok true q := by
  have hrests : Ensures closeAll p (fun all => Rests p (.inr all)) fun e _ => ¬e.IsRefusal := by
    rw [Ensures, closeAll_unless, if_neg (by simp [hbrace])]
    exact closeAllLoop_quiet p.blocks.toList hquiet hbrace
  have hsteady := closeAll_steady h
  cases hclose : closeAll p with
  | ok all q =>
    obtain ⟨-, hrest⟩ := hrests.ok hclose
    obtain ⟨hdepth, hended, hall⟩ := hrest all rfl
    have hidle : q.blocks.isIdle = true :=
      isIdle_of_nested (hsteady.ok hclose).1.balanced.nested hdepth hended
    exact ⟨q, by rw [hall, hidle]⟩
  | error e q => exact absurd (hsteady.error hclose).1 (hrests.error hclose)

theorem closeAll_of_hasBrace (h : p.blocks.hasBrace = true) : closeAll p = .ok false p := by
  rw [closeAll_unless, if_pos h]
  rfl

end Compile

/-! ## Sessions -/

open Compile

/-- The pass at the end of the input. -/
def Session.atInputEnd (s : Session) : Pass where
  toSession := s
  token := ⟨.eof, "", ⟨1, 1, 0⟩⟩
  previous := .newline
  upcoming := []

theorem advance_atInputEnd : advance (Pass.start s "") = .ok () s.atInputEnd := by
  have hread (mode : Strictness) :
      readTokens mode "" = [⟨⟨.eof, "", ⟨1, 1, 0⟩⟩, [], none⟩] := by cases mode <;> decide
  rw [advance_of_cons (hread s.strictness)]
  simp [moved, Pass.start, Session.atInputEnd]

/-- Whether everything was closed. -/
theorem inputEnd_eq (s : Session) : inputEnd (Pass.start s "") =
    (closeAll >>= fun all => if all then pure () else refuseHere .blockEnd) s.atInputEnd := by
  rw [inputEnd, bind_of_ok advance_atInputEnd]

namespace Session

theorem finish_of_hasBrace (h : s.blocks.hasBrace = true) :
    s.finish = (.error (.refused ⟨.blockEnd, ⟨1, 1, 0⟩, none⟩), s.reset) := by
  have hend : inputEnd (Pass.start s "") =
      .error (.refused ⟨.blockEnd, ⟨1, 1, 0⟩, none⟩) s.atInputEnd := by
    rw [inputEnd_eq, bind_of_ok (closeAll_of_hasBrace h)]
    rfl
  simp only [finish, run, hend]
  rfl

theorem inputEnd_of_closeAll (h : closeAll s.atInputEnd = .ok true q) :
    inputEnd (Pass.start s "") = .ok () q := by
  rw [inputEnd_eq, bind_of_ok h]
  rfl

theorem finish_of_closeAll (h : closeAll s.atInputEnd = .ok true q) :
    s.finish = (.ok (), q.toSession.commit) := by
  simp only [finish, run, inputEnd_of_closeAll h]

theorem Consistent.steady_atInputEnd {B : Prop} (h : s.Consistent B) : s.atInputEnd.Steady B := by
  have hstart : (Pass.start s "").Steady B := h.start fun _ => by decide
  exact (advance_steady hstart (by simp [Pass.start])).ok advance_atInputEnd

/-! ## Sessions that are the same but for lines -/

theorem unlined_cut (f : Function) (c : Checkpoint) : (f.cut c).unlined = f.unlined.cut c := by
  rw [Function.cut, Function.cut, Function.unlined, Function.unlined, Code.unlined_truncate]

theorem program_reset (s : Session) : s.reset.program =
    s.abandonDefinition.program.modifyFunction (·.cut s.checkpoint) Program.mainId := by
  unfold reset abandonDefinition
  split <;> rfl

/-- Taken back, they have the same program. -/
theorem Alike.reset (h : s.Alike t) : t.reset.program.unlined = s.reset.program.unlined := by
  have habandon : t.abandonDefinition.program.unlined = s.abandonDefinition.program.unlined := by
    unfold abandonDefinition
    rw [h.target]
    split
    · exact h.program
    · refine Program.unlined_modifyFunction h.program (fun f g hfg => ?_) _
      have hname : g.name = f.name := congrArg (·.name) hfg
      simp [Function.clear, hname]
  rw [program_reset, program_reset, h.checkpoint]
  refine Program.unlined_modifyFunction habandon (fun f g hfg => ?_) _
  rw [unlined_cut, unlined_cut, hfg]

theorem Alike.ahead_atInputEnd (h : s.Alike t) (hs : s.strictness = .lenient) :
    s.atInputEnd.Ahead [.eof] t.atInputEnd :=
  { h with
    lenient := hs
    quitting := rfl
    place := ⟨nofun, rfl, [], rfl, rfl, .inl rfl⟩ }

/-- **The end of the input** is accepted by both or by neither, and the program is the same. -/
theorem Alike.finish {B : Prop} (h : s.Alike t) (hs : s.strictness = .lenient)
    (hc : s.Consistent B) :
    t.finish.1 = s.finish.1 ∧ t.finish.2.program.unlined = s.finish.2.program.unlined := by
  cases hbrace : s.blocks.hasBrace with
  | true =>
    rw [finish_of_hasBrace hbrace, finish_of_hasBrace (h.blocks ▸ hbrace)]
    exact ⟨rfl, h.reset⟩
  | false =>
    have hquiet : s.atInputEnd.spot.Quiet .lenient := ⟨hs, nofun, nofun⟩
    obtain ⟨q, hq⟩ := closeAll_of_braceless hc.steady_atInputEnd hquiet hbrace
    obtain ⟨Q, hQ, hahead⟩ :=
      (keeps_closeAll readable_eof (h.ahead_atInputEnd hs)).follows.ahead hq
    rw [finish_of_closeAll hq, finish_of_closeAll hQ]
    exact ⟨rfl, by rw [program_commit, program_commit]; exact hahead.program⟩

end Session

end DeskCalc
