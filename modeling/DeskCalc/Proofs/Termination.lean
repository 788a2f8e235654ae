import DeskCalc.Proofs.Counters
import DeskCalc.Proofs.Returns.Sessions
import DeskCalc.Proofs.Strictness.Chunk

/-!
# Every loop comes to its end

An item moves past a token, or it closes something: twice the number of open blocks, and one more if an
`if` may still get its `else`, becomes smaller (`item_advances`). Inside an item bodies are closed one
after the other. Every block but the outermost one can be closed (`BlockStack.Fenced.formed`), so that
each round of that loop leaves fewer blocks open (`closeOne_shrinks`), and so does each round of the
loop that closes all bodies (`closeAllStep_shrinks`). No call of a session runs on for ever
(`Session.Leads.terminates`), and none fails but by a refusal, if no answer has come inside a definition.
Otherwise the compiler may fail (`Session.answeredInLoop_fails`).
-/

namespace DeskCalc

namespace Pass

/-- What an item that moves past no token makes smaller. -/
def standing (p : Pass) : Nat := 2 * p.blocks.depth + p.blocks.top.ifEnded.toNat

/-- Something has been read behind `p`, or something has been closed there. -/
def Advances (p q : Pass) : Prop :=
  (∃ v, v ≠ [] ∧ p.rest = v ++ q.rest) ∨ q.rest = p.rest ∧ q.standing < p.standing

end Pass

namespace Compile

open Pass

variable {p q r : Pass} {c c' : Closing}

/-- **An item gets on.** -/
theorem item_advances (h : p.Steady False) :
    Ensures item p (fun _ q => q.quitting = true ∨ p.Advances q) fun e _ => e.IsRefusal := by
  have hitem := item_holds (B := some (Trail.free False))
    (Q := fun _ q => q.quitting = true ∨ p.Advances q) (by simp [Trail.free]) h.poised ?_
  · exact hitem.mono (fun _ _ => id) fun _ _ he => (he _ rfl).1
  · intro v q hq
    have hrest : p.rest = v ++ q.rest := hq.onward.rest
    refine (hq.weight rfl).imp_right fun hlt => ?_
    by_cases hv : v = []
    · rw [hv, List.nil_append] at hrest
      have hlength : q.upcoming.length = p.upcoming.length := by
        simpa [Pass.rest] using congrArg List.length hrest.symm
      rw [Pass.weight, Pass.weight, hlength] at hlt
      refine .inr ⟨hrest.symm, ?_⟩
      rw [standing, standing]
      omega
    · exact .inl ⟨v, hv, hrest⟩

/-! ## Bodies -/

theorem isBody_top (h : p.Orderly True) (hdepth : 1 < p.blocks.depth) :
    p.blocks.top.isBody = true := by
  have hformed := h.fenced.formed
  rcases hp : p.blocks with ⟨top, _ | ⟨b, below⟩⟩
  · rw [hp] at hdepth
    cases Nat.lt_irrefl 1 hdepth
  · rw [hp] at hformed
    exact hformed top List.mem_cons_self

/-- Where no `else` follows the body of an `if` it is closed. -/
theorem depth_of_closeIf {outer : Bool} (h : p.Orderly True) (hq : closeIf outer p = .ok false q) :
    q.blocks.depth = p.blocks.pop.depth := by
  obtain ⟨_, r, hr, hq⟩ := bind_eq_ok hq
  have hscene := ((unmoved True).keeps (m := skipNewlines) h.toTidy).ok hr
  have hblocks : r.blocks = p.blocks := congrArg (fun s => s.2.2) hscene.2
  by_cases hmode : r.strictness = .strict
  · replace hq : closeIfHere outer r = .ok false q := hq
    rw [closeIfHere_of_strict hmode] at hq
    obtain ⟨_, t, ht, hq⟩ := bind_eq_ok hq
    cases hq
    rw [depth_of_endIf ht, ← hblocks]
  · replace hq : closeIfHere outer r = .ok false q := hq
    rw [closeIfHere_of_ne hmode] at hq
    rw [depth_of_lookForElse hq, ← hblocks]
    rfl

/-- **The loop that closes bodies** goes on with fewer open blocks. -/
theorem closeOne_shrinks (h : p.Orderly True) (hdepth : 1 < p.blocks.depth)
    (hbraced : c.braced = p.blocks.top.brace) (hq : closeOne c p = .ok (.inl c') q) :
    q.blocks.depth < p.blocks.depth ∧ 1 < q.blocks.depth ∧ c'.braced = q.blocks.top.brace := by
  rw [closeOne] at hq
  split at hq
  · exact ((ensures_unexpected fun _ => trivial : Accepts unexpected p fun _ _ => False).ok hq).elim
  obtain ⟨_, r, hr, hq⟩ := bind_eq_ok (show (closeInnermost c.braced >>= fun _ =>
    closeAround c p.blocks.depth) p = _ from hq)
  have horderly := (((orderly True).keeps (m := closeInnermost c.braced) h).ok hr).1
  have hle := depth_of_closeInnermost hr
  have hpop := BlockStack.depth_pop_lt hdepth
  change (if r.blocks.top.ifBody && (p.blocks.depth == r.blocks.depth || !r.blocks.top.brace) then
    closeIf (c.brace && !c.braced) >>= closeNext (c.brace && !c.braced)
    else closeNext (c.brace && !c.braced) false : Compile _) r = _ at hq
  split at hq
  · obtain ⟨found, t, ht, hq⟩ := bind_eq_ok hq
    rw [closeNext_eq] at hq
    obtain ⟨hend, rfl⟩ := EStateM.Result.ok.inj hq
    obtain ⟨rfl, hopen, rfl⟩ := of_ending_inl hend
    refine ⟨?_, hopen, rfl⟩
    -- the outermost block is no body of an `if`, and stays open
    have hlt : r.blocks.pop.depth < r.blocks.depth := by
      have hclosed := depth_of_closeIf horderly ht
      have hmost := r.blocks.depth_pop_le
      exact BlockStack.depth_pop_lt (by omega)
    rw [depth_of_closeIf horderly ht]
    omega
  · next hcond =>
    rw [closeNext_eq] at hq
    obtain ⟨hend, rfl⟩ := EStateM.Result.ok.inj hq
    obtain ⟨rfl, hopen, -⟩ := of_ending_inl hend
    refine ⟨?_, hopen, rfl⟩
    rcases (closeInnermost_changes.ok hr).2 with hpopped | ⟨hsame, hif⟩
    · exact hpopped ▸ hpop
    · rw [hsame, hif hbraced.symm (isBody_top h hdepth)] at hcond
      simp at hcond

/-- **The loop that closes all bodies** goes on with fewer open blocks, or it has settled the last
`if`. -/
theorem closeAllStep_shrinks (hq : closeAllStep () p = .ok (.inl ()) q) :
    q.blocks.depth < p.blocks.depth ∨
      q.blocks.depth = p.blocks.depth ∧ p.blocks.top.ifEnded = true ∧ q.blocks.top.ifEnded = false := by
  have hbody {r : Pass} (hr : closeAllBody p.blocks.depth r = .ok (.inl ()) q) :
      q.blocks.depth < p.blocks.depth ∨ q = r ∧ p.blocks.depth ≤ 1 := by
    unfold closeAllBody at hr
    split at hr
    · obtain ⟨_, t, -, ht⟩ := bind_eq_ok hr
      change (if t.blocks.depth ≥ p.blocks.depth then pure (.inr false) else pure (.inl ()) :
        Compile (Unit ⊕ Bool)) t = _ at ht
      split at ht <;> cases ht
      exact .inl (Nat.lt_of_not_le ‹_›)
    · next hone =>
      cases hr
      exact .inr ⟨rfl, Nat.le_of_not_lt hone⟩
  rw [closeAllStep_eq] at hq
  split at hq
  · next hopen =>
    split at hq
    · next hended =>
      obtain ⟨_, r, hr, hq⟩ := bind_eq_ok hq
      have hblocks := (endIf_blocks.ok hr).2
      refine (hbody hq).imp_right fun ⟨hsame, _⟩ => ?_
      rw [hsame, hblocks]
      exact ⟨rfl, hended, rfl⟩
    · next hended =>
      refine .inl ((hbody hq).resolve_right fun ⟨_, hone⟩ => ?_)
      simp only [hended, Bool.or_false, decide_eq_true_eq] at hopen
      omega
  · cases hq

/-- Each of its rounds, from the first one on. -/
theorem closings_shrink {brace : Bool} (h : p.Orderly True) (hdepth : 1 < p.blocks.depth)
    (hq : Repeats closeOne ⟨brace, p.blocks.top.brace⟩ p c q) (hr : closeOne c q = .ok (.inl c') r) :
    r.blocks.depth < q.blocks.depth := by
  have hkept := hq.keeps (I := fun c q => q.Orderly True ∧ 1 < q.blocks.depth ∧
    c.braced = q.blocks.top.brace) ⟨h, hdepth, rfl⟩ fun c q ⟨hq, hdepth, hbraced⟩ => ?_
  · exact (closeOne_shrinks hkept.1 hkept.2.1 hkept.2.2 hr).1
  · refine ((ensures_self _).and ((orderly True).keeps (m := closeOne c) hq)).mono ?_
      fun _ _ _ => trivial
    rintro (c' | _) r ⟨hr, hkeeps⟩
    · exact ⟨hkeeps.1, (closeOne_shrinks hq hdepth hbraced hr).2⟩
    · trivial

/-! ## Inside an item -/

/-- What an item does before it closes a body. -/
def innerSteps : List (Compile Unit) :=
  [forbidAuto, modifyBlocks fun s => s.modifyTop ({ · with brace := true }),
    modifyBlocks fun s => s.modifyTop ({ · with awaited := false }),
    advance, innerStatement, endIf, closingBrace, endBody false]

/-- The passes that the compiler comes to inside an item that begins at `p`, but for those where it
closes one body after the other. -/
inductive Amid (p : Pass) : Pass → Prop
  | refl : Amid p p
  | step {q r : Pass} {m : Compile Unit} (h : Amid p q) (hm : m ∈ innerSteps)
      (hr : m q = .ok () r) : Amid p r

theorem Amid.orderly (h : Amid p q) (hp : p.Orderly True) : q.Orderly True := by
  induction h with
  | refl => exact hp
  | step _ hm hr ih =>
    have hbrace : Fine (Compile.orderly True).parts
        (modifyBlocks fun s => s.modifyTop ({ · with brace := true })) :=
      Shifts.shift (.top _ (fun _ => rfl) (fun _ => rfl) (fun _ _ => rfl) fun _ _ => rfl)
    have hbegin : Fine (Compile.orderly True).parts
        (modifyBlocks fun s => s.modifyTop ({ · with awaited := false })) :=
      Shifts.shift (.top _ (fun _ => rfl) (fun _ => rfl) (fun _ => id) fun _ => id)
    simp only [innerSteps, List.mem_cons, List.not_mem_nil, or_false] at hm
    rcases hm with rfl | rfl | rfl | rfl | rfl | rfl | rfl | rfl <;>
      exact (((Compile.orderly True).keeps ih).ok hr).1

end Compile

namespace Session

open Compile

variable {texts : String → Prop} {s : Session} {text : String} {p : Pass}

/-- The loop over the items of a text, the loops that close bodies inside an item and those that close
all bodies make something smaller in every round, and no call fails but by a refusal. -/
structure Terminates (s : Session) : Prop where
  item : ∀ text p, s.ItemAt text p → Ensures item p
    (fun _ q => q.quitting = true ∨ p.Advances q) fun e _ => e.IsRefusal
  bodies : ∀ text p q r t brace c c', s.ItemAt text p → Amid p q → 1 < q.blocks.depth →
    Repeats closeOne ⟨brace, q.blocks.top.brace⟩ q c r → closeOne c r = .ok (.inl c') t →
      t.blocks.depth < r.blocks.depth
  all : ∀ q r, closeAllStep () q = .ok (.inl ()) r → r.blocks.depth < q.blocks.depth ∨
    r.blocks.depth = q.blocks.depth ∧ q.blocks.top.ifEnded = true ∧ r.blocks.top.ifEnded = false
  compile : ∀ text e, (s.compile text).1 = .error e → e.IsRefusal
  finish : ∀ e, s.finish.1 = .error e → e.IsRefusal

/-- Where an item begins the compiler is in order. -/
theorem ItemAt.holds (h : s.ItemAt text p) (hs : s.Consistent False) (hregular : s.Regular) :
    p.Steady False ∧ p.Prompt := by
  obtain ⟨p₀, hfirst, hitems⟩ := h
  have hstart : (Pass.start s text).Steady False := hs.start False.elim
  refine hitems.keeps (I := fun _ q => q.Steady False ∧ q.Prompt) ⟨?_, ?_⟩ fun _ q hq => ?_
  · exact (advance_steady hstart (by simp [Pass.start])).ok hfirst
  · exact ((prompt.keeps (m := advance) (hregular.start hs text)).ok hfirst).1
  · have hitem : Ensures nextItem q (fun r t => ∀ u, r = .inl u → t.Steady False)
        fun _ _ => True := by
      simp only [nextItem, itemEnd, ensures_bind, ensures_isAt, ensures_ite, ensures_get, ensures_pure]
      split
      · rintro _ ⟨⟩
      · refine (item_steady (fun _ _ => trivial) hq.1).mono (fun _ t ht => ?_) fun _ _ _ => trivial
        split
        · rintro _ ⟨⟩
        · rw [ensures_modify]
          exact fun _ _ => steady_commit ht.1
    refine (hitem.and (prompt.keeps hq.2)).mono ?_ fun _ _ _ => trivial
    rintro (_ | _) t ⟨hsteady, hprompt⟩
    · exact ⟨hsteady _ rfl, hprompt.1⟩
    · trivial

/-- **Compilation comes to an end**, whatever the session has been through and whatever it is given,
unless an answer has come inside a definition. -/
theorem Leads.terminates {options : Options} (h : (new options).Leads texts s) : s.Terminates where
  item text p hp :=
    item_advances (hp.holds (h.consistent (consistent_new options) False.elim) h.regular).1
  bodies text p q r t brace c c' hp hq hdepth hr ht := by
    have hprompt := (hp.holds (h.consistent (consistent_new options) False.elim) h.regular).2
    exact closings_shrink (hq.orderly hprompt.toOrderly) hdepth hr ht
  all _ _ := closeAllStep_shrinks
  compile text e he :=
    (isRefusal_of_compile (h.consistent (consistent_new options) False.elim) False.elim he).1
  finish e := isRefusal_of_finish (h.consistent (consistent_new options) False.elim)

/-- The bodies of two loops and of an `if` begin. -/
def openBodies : Call := .compile "while (a) while (b) \x7b x\nif (c)\n"

theorem openBodies_terminates : (openBodies.run (new {})).2.blocks.depth = 4 ∧
    (openBodies.run (new {})).2.Terminates := by
  have hleads : (new {}).Leads (fun _ => True) (openBodies.run (new {})).2 :=
    .call .refl (c := openBodies) trivial
  exact ⟨by decide +kernel, hleads.terminates⟩

/-- The answer came while a loop was open in the body of a function. -/
def answeredInLoop : Session :=
  (((new {}).compile "define f() \x7b\nwhile (1) \x7b\n").2.compileAnswer "1\n").2

/-- Behind an answer inside a definition the end of an open loop is looked for in the main program,
and the compiler fails. -/
theorem answeredInLoop_fails :
    (answeredInLoop.compile "\x7d\n").1 = .error (.fault (.label (.missing 1))) := by
  decide +kernel

end Session

end DeskCalc
