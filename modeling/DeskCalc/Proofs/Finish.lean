import DeskCalc.Proofs.Chunks.InputEnd
import DeskCalc.Proofs.Reachable
import DeskCalc.Proofs.Returns.Sessions

/-!
# What the end of the input closes

At the end of the input every body ends that has no brace, with all that is around it, and an `if`
gets no `else` any more. The input is refused there if a brace is open, and only then
(`Session.leads_finish`). Either way nothing is open afterwards.

The body of a function has a brace once anything of it has been read (`BlockStack.Prompt`). Where only
the header has been read the input may end as well, and the function gets a return as its only code
(`Session.headerAlone_finished`).
-/

namespace DeskCalc

/-- The function with the return that ends its body. -/
def Function.ended (f : Function) (line : Nat) : Function :=
  { f with code := f.code.write (if f.isVoid then .retVoid else .ret0) [] line }

namespace Compile

variable {p : Pass} {f : Function}

/-- What was open is closed, and the function that received code returns. -/
def Returned (p q : Pass) : Prop :=
  q.blocks = {} ∧ q.program = p.program.modifyFunction (·.ended p.token.span.line) p.target

section

variable (hp : p.blocks = BlockStack.header)
include hp

theorem closeInnermost_header : Accepts (closeInnermost false) p fun _ => Returned p := by
  simp only [Accepts, closeInnermost, function, emit, emitWith, modifyFunction, closeBlock,
    modifyBlocks, ensures_bind, ensures_topBlock, ensures_ite, ensures_get, ensures_here, ensures_set,
    ensures_modify, hp, BlockStack.header, BlockStack.push, Bool.or_self, Bool.false_eq_true, if_false,
    if_true]
  cases hf : p.program.function? p.target with
  | none => trivial
  | some f =>
    have hsame (line : Nat) : p.program.modifyFunction
        (fun g => { g with code := g.code.write (if f.isVoid then .retVoid else .ret0) [] line })
        p.target = p.program.modifyFunction (·.ended line) p.target :=
      Program.modifyFunction_congr hf rfl
    rw [ensures_pure]
    split
    · exact ⟨congrArg BlockStack.pop hp, hsame _⟩
    · trivial

/-- With the header of a function nothing else ends. -/
theorem closeOne_header :
    Accepts (closeOne ⟨false, false⟩) p fun r q => r = .inr false ∧ Returned p q := by
  rw [closeOne, Accepts, ensures_ite, if_neg (by simp), ensures_bind, ensures_get, ensures_bind]
  refine (closeInnermost_header hp).imp ?_
  rintro - q hq
  simp only [closeAround, ensures_bind, ensures_get, hq.1, Bool.false_and, Bool.false_eq_true,
    if_false, ensures_pure]
  refine ensures_of_ok (closeNext_eq false false q) ⟨?_, hq⟩
  rw [hq.1]
  rfl

theorem endBody_header : Accepts (endBody false) p fun _ => Returned p := by
  have hdepth : 1 < p.blocks.depth := by
    rw [hp]
    decide
  rw [Accepts, Ensures, endBody_false hdepth]
  change Accepts (closeBehind false) p _
  simp only [Accepts, closeBehind, closeBodies, ensures_bind, ensures_get, hp]
  rw [BlockStack.header, BlockStack.toList_push, iterate, ensures_bind]
  refine (closeOne_header hp).imp ?_
  rintro _ q ⟨rfl, hq⟩
  simpa using hq

/-- At the end of the input a function whose body is awaited gets its return and nothing else. -/
theorem closeAll_header : Accepts closeAll p fun _ => Returned p := by
  rw [Accepts, Ensures, closeAll_unless, if_neg (by rw [hp]; decide)]
  refine accepts_iterate (fun _ q => q = p ∨ Returned p q) ?_ _ () p (.inl rfl)
  rintro - q (rfl | hq)
  · have hdepth : BlockStack.header.depth = 2 := rfl
    have hended : BlockStack.header.top.ifEnded = false := rfl
    simp only [closeAllStep, closeAllBody, Accepts, ensures_bind, ensures_get, ensures_ite, hp,
      hended, hdepth, Bool.false_eq_true, if_false, Nat.lt_succ_self, gt_iff_lt, decide_true,
      Bool.true_or, if_true]
    refine (endBody_header hp).imp ?_
    rintro - r hr
    rw [if_neg (by rw [hr.1]; decide)]
    exact .inr hr
  · simp only [closeAllStep, Accepts, ensures_bind, ensures_get, ensures_ite, hq.1]
    exact hq

end

/-- No name lies ahead. -/
def Nameless (p : Pass) : Prop := ∀ t ∈ p.rest, t.kind ≠ .name

/-- The program has the same functions. -/
def SameFunctions (p q : Pass) : Prop := ∀ i, q.program.hasFunction i = p.program.hasFunction i

theorem sameFunctions_change (p : Pass) (change : Function → Function) :
    SameFunctions p { p with program := p.program.modifyFunction change p.target } := by
  intro i
  simp only [Program.hasFunction_eq, Program.function?_modifyFunction]
  split <;> simp

theorem modifyFunction_nameless (h : Nameless p) (change : Function → Function) :
    Ensures (modifyFunction change) p (fun _ q => Nameless q ∧ SameFunctions p q)
      fun _ _ => True := by
  simp only [modifyFunction, ensures_bind, ensures_get, ensures_ite, ensures_set, ensures_throw]
  split
  · exact ⟨h, sameFunctions_change p change⟩
  · trivial

/-- **No function is entered where no name lies ahead.** -/
def nameless : Stepwise where
  Pre := Nameless
  Done := SameFunctions
  Left _ _ _ := True
  Known _ := True
  Fit _ := False
  reads := true
  known _ := ⟨trivial, fun _ _ _ _ => trivial⟩
  fit h := h _ List.mem_cons_self
  trans h h' i := (h' i).trans (h i)
  left _ _ _ := trivial
  leave _ _ := trivial
  done h hahead hprogram _ _ := ⟨fun t ht => h t (hahead.rest ht), fun _ => by rw [hprogram]⟩
  emit h _ _ := modifyFunction_nameless h _
  enter {p} h e span he _ := by
    simp only [intern, ensures_bind, ensures_get]
    rcases e.enter_cases span p.program with ⟨_, -, hk⟩ | ⟨Q, -, -, hQ, hk⟩ | ⟨-, -, hk⟩ <;> rw [hk]
    · exact ⟨h, fun _ => rfl⟩
    · cases e with
      | constant c => exact ⟨h, fun i => by simp only [Program.hasFunction, hQ]; rfl⟩
      | _ => exact he.elim
    · trivial
  suppressValue {p} h t := by
    simp only [Compile.suppressValue, function, here, putFunction, ensures_bind, ensures_get]
    split
    · simp only [ensures_pure]
      split
      · exact ⟨h, sameFunctions_change p _⟩
      · exact ⟨h, fun _ => rfl⟩
    · trivial
  anyReads := rfl
  jump h _ _ _ := modifyFunction_nameless h _
  relabel {p} _ h _ _ := ⟨h, sameFunctions_change p _⟩

/-- The end of the input enters no function. -/
theorem closeAll_sameFunctions (h : Nameless p) :
    Ensures closeAll p (fun _ => SameFunctions p) fun _ _ => True := by
  have hshifts : Shifts nameless.parts := ⟨fun _ => nameless.fine fun _ h => ⟨h, fun _ => rfl⟩⟩
  have hleave (braced : Bool) : Fine nameless.parts (closeInnermost braced) := by
    refine fine_closeInnermost braced fun p h _ => ?_
    refine nameless.function h fun f _ => nameless.bind (modifyFunction_nameless h _) fun _ q _ h => ?_
    exact nameless.bind (p := q) ⟨h, fun _ => rfl⟩ fun _ q _ h => nameless.keeps h
  exact (nameless.keeps h).imp fun _ _ h => h.2

end Compile

/-- While code goes to the main program, no other function changes. -/
theorem Draft.Edits.others_of_main {d e : Draft} {n i : Nat} {g : Function}
    (h : d.Edits (fun _ => False) n e) (hd : d.target = Program.mainId) (hi : i ≠ Program.mainId)
    (hg : d.program.function? i = some g) : e.program.function? i = some g := by
  have hsteps := h.steps
  clear h
  have hkept : e.target = Program.mainId ∧ e.program.function? i = some g := by
    induction hsteps with
    | refl => exact ⟨hd, hg⟩
    | tail _ hstep ih =>
      obtain ⟨hmain, hold⟩ := ih
      rcases hstep with hr | ⟨f, P, -, -, hP, rfl⟩ | ⟨-, -, -, -, -, hnew⟩
      · exact ⟨hr.target.trans hmain, hr.others i g (hmain ▸ hi) hold⟩
      · exact ⟨rfl, hP.others i g (hmain ▸ hi) hold⟩
      · cases hnew
  exact hkept.2

namespace Session

variable {s : Session} {m : Function} {texts : String → Prop}

theorem isReady_reset (s : Session) : s.reset.isReady = true := by
  have hblocks : s.reset.blocks.isIdle = true := rfl
  simp [isReady, target_reset, hblocks]

/-- **Without an open brace the end of the input closes everything.** -/
theorem finish_of_braceless (h : s.Consistent False) (hbrace : s.blocks.hasBrace = false) :
    ∃ q, Compile.closeAll s.atInputEnd = .ok true q ∧ s.finish = (.ok (), q.toSession.commit) := by
  have hquiet : s.atInputEnd.spot.Quiet s.strictness := ⟨rfl, nofun, nofun⟩
  obtain ⟨q, hq⟩ := Compile.closeAll_of_braceless h.steady_atInputEnd hquiet hbrace
  exact ⟨q, hq, finish_of_closeAll hq⟩

theorem isReady_finish (h : s.Consistent False) : s.finish.2.isReady = true := by
  cases hbrace : s.blocks.hasBrace with
  | true =>
    rw [finish_of_hasBrace hbrace]
    exact isReady_reset s
  | false =>
    obtain ⟨q, hq, hfinish⟩ := finish_of_braceless h hbrace
    have hidle : s.finish.2.blocks.isIdle = true := by
      rw [hfinish, Compile.blocks_commit]
      exact Compile.closeAll_idle.ok hq rfl
    have hmain : s.finish.2.target = Program.mainId :=
      ((consistent_finish h).balanced.of_isIdle hidle).2.2
    simp [isReady, hmain, hidle]

/-- When the session is ready no label is pending. -/
theorem Consistent.resolved (h : s.Consistent False) (hready : s.isReady = true) {id : Nat}
    {f : Function} (hf : s.program.function? id = some f) (l : Nat) :
    f.labels.get? l ≠ some .pending := by
  intro hl
  obtain ⟨hexits, -, -⟩ := h.balanced.of_isIdle (Bool.and_eq_true_iff.1 hready).2
  have hmem := ((h.bookkeeping.pending id f hf l).1 hl).2
  rw [show s.exits = [] from hexits] at hmem
  cases hmem

/-- Where no body of a function is open code goes to the main program, and the end of the input
leaves the other functions alone. -/
theorem finish_functions (h : s.Tracks m) (hbody : ∀ b ∈ s.blocks.toList, b.funcBody = false)
    (hbrace : s.blocks.hasBrace = false) {id : Nat} (hid : id ≠ Program.mainId) :
    s.finish.2.program.function? id = s.program.function? id := by
  have hmain : s.target = Program.mainId := by
    by_contra hne
    obtain ⟨b, hb, hfunc⟩ := h.consistent.bookkeeping.target.1 hne
    have hmem : b ∈ s.blocks.toList := List.mem_reverse.1 (List.mem_of_getElem? hb)
    rw [hbody b hmem] at hfunc
    cases hfunc
  obtain ⟨q, hq, hfinish⟩ := finish_of_braceless h.consistent hbrace
  have hedits := (Compile.inputEnd_edits (fun _ => False) (h.steady "") (by simp [Pass.start])).ok
    (inputEnd_of_closeAll hq)
  have hsame := (Compile.closeAll_sameFunctions (p := s.atInputEnd)
    (by simp [Compile.Nameless, Pass.rest, atInputEnd])).ok hq id
  rw [hfinish, program_commit]
  cases hg : s.program.function? id with
  | some g => exact hedits.2.others_of_main hmain hid hg
  | none =>
    have hnone : s.atInputEnd.program.function? id = none := hg
    rwa [Program.hasFunction_eq, Program.hasFunction_eq, hnone, Option.isSome_none,
      Option.isSome_eq_false_iff, Option.isNone_iff_eq_none] at hsame

/-- The body of a function that has no brace is one of which nothing has been read. It ends with the
input, and the function gets its return. -/
theorem finish_header (h : s.Regular) (hs : s.Consistent False)
    (hbrace : s.blocks.hasBrace = false) (hbody : ∃ b ∈ s.blocks.toList, b.funcBody = true) :
    s.blocks = BlockStack.header ∧ s.target ≠ Program.mainId ∧
      s.finish.2.program = s.program.modifyFunction (·.ended 1) s.target := by
  obtain ⟨b, hb, hfunc⟩ := hbody
  have hheader : s.blocks = BlockStack.header := by
    refine h.prompt.resolve_left fun hall => ?_
    have hany := List.any_eq_false.1 hbrace b hb
    exact hany (hall b hb hfunc)
  obtain ⟨q, hq, hfinish⟩ := finish_of_braceless hs hbrace
  refine ⟨hheader, h.fenced.target b hb (.inr hfunc), ?_⟩
  rw [hfinish, program_commit]
  exact ((Compile.closeAll_header (p := s.atInputEnd) hheader).ok hq).2

/-- **What the end of the input closes.** It is accepted exactly if no brace is open, and otherwise it
is refused; the session is ready afterwards in any case. If it is accepted, all labels are resolved,
and the functions other than the main program are what they were, with one exception: a function of
whose body nothing has been read, not even its brace, gets the return that ends it. An answer inside
a definition is not among the calls. -/
theorem leads_finish {options : Options} (h : (new options).Leads texts s) :
    (s.finish.1 = .ok () ↔ ∀ b ∈ s.blocks.toList, b.brace = false) ∧
    (s.finish.1 ≠ .ok () →
      s.finish = (.error (.refused ⟨.blockEnd, ⟨1, 1, 0⟩, none⟩), s.reset)) ∧
    s.finish.2.isReady = true ∧
    (s.finish.1 = .ok () →
      (∀ id f, s.finish.2.program.function? id = some f → ∀ l, f.labels.get? l ≠ some .pending) ∧
      ((∀ b ∈ s.blocks.toList, b.funcBody = false) → ∀ id, id ≠ Program.mainId →
        s.finish.2.program.function? id = s.program.function? id) ∧
      ((∃ b ∈ s.blocks.toList, b.funcBody = true) →
        s.blocks = BlockStack.header ∧ s.target ≠ Program.mainId ∧
          s.finish.2.program = s.program.modifyFunction (·.ended 1) s.target)) := by
  obtain ⟨m, hm⟩ := h.history
  have htracks := hm.tracks
  have hs := htracks.consistent
  have hbrace : s.blocks.hasBrace = false ↔ ∀ b ∈ s.blocks.toList, b.brace = false := by
    simp [BlockStack.hasBrace]
  have hok : s.finish.1 = .ok () ↔ s.blocks.hasBrace = false := by
    cases hopen : s.blocks.hasBrace with
    | true => simp [finish_of_hasBrace hopen]
    | false =>
      obtain ⟨q, -, hfinish⟩ := finish_of_braceless hs hopen
      simp [hfinish]
  have hready := isReady_finish hs
  refine ⟨hok.trans hbrace, fun hne => ?_, hready, fun hyes => ⟨fun id f hf l => ?_, ?_, ?_⟩⟩
  · exact finish_of_hasBrace (by simpa [hok] using hne)
  · exact (consistent_finish hs).resolved hready hf l
  · exact fun hbody id => finish_functions htracks hbody (hok.1 hyes)
  · exact finish_header h.regular hs (hok.1 hyes)

/-- Three loops and an `if` are open, none with a brace, and the `if` may still get its `else`. -/
def unbracedLoops : Call :=
  .compile ("define f() \x7b return (1) \x7d\n" ++
    "for (i = 0; i < 3; ++i) while (b) while (c) if (f()) x = 1\n")

theorem unbracedLoops_finish :
    (new {}).Leads (fun _ => True) (unbracedLoops.run (new {})).2 ∧
      (unbracedLoops.run (new {})).2.blocks.depth = 4 ∧
      (unbracedLoops.run (new {})).2.exits.length = 4 ∧
      (unbracedLoops.run (new {})).2.finish.1 = .ok () ∧
      (unbracedLoops.run (new {})).2.finish.2.isReady = true ∧
      ∀ id f, (unbracedLoops.run (new {})).2.finish.2.program.function? id = some f →
        ∀ l, f.labels.get? l ≠ some .pending := by
  have hleads : (new {}).Leads (fun _ => True) (unbracedLoops.run (new {})).2 :=
    .call .refl (show unbracedLoops.Allowed _ _ from trivial)
  have hopen : (unbracedLoops.run (new {})).2.blocks.depth = 4 ∧
      (unbracedLoops.run (new {})).2.exits.length = 4 ∧
      ∀ b ∈ (unbracedLoops.run (new {})).2.blocks.toList, b.brace = false := by decide +kernel
  obtain ⟨haccepted, -, hready, hrest⟩ := leads_finish hleads
  have hok := haccepted.2 hopen.2.2
  exact ⟨hleads, hopen.1, hopen.2.1, hok, hready, (hrest hok).1⟩

/-- The header of a function has been read. -/
def headerAlone : Session := ((new {}).compile "define f()\n").2

/-- The body of a function is open, and yet the input may end: the function returns at once and counts
as defined. -/
theorem headerAlone_finished :
    (∃ b ∈ headerAlone.blocks.toList, b.funcBody = true) ∧ headerAlone.finish.1 = .ok () ∧
      (headerAlone.program.function? 2).map (·.code.instructions.length) = some 0 ∧
      (headerAlone.finish.2.program.function? 2).map (fun f => (f.defined, f.code.lastOpcode?)) =
        some (true, some .ret0) := by
  decide +kernel

end Session

end DeskCalc
