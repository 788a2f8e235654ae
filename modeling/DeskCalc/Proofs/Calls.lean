import DeskCalc.Proofs.Sessions

/-!
# Calls

A session is used by calls on it, in any order: a chunk is compiled, the input ends, the session is
taken back, the warnings are taken away, or the answer to a `read()` is compiled, the last one only
while no function is being defined. `s.Leads texts t` says that `t` comes out of `s` by such calls, and
a session is `Reachable` if it comes out of a new one.

So all that is said of these sessions leaves out an answer that comes inside a definition. Behind such
an answer code goes to the main program, and the end of an open loop is then missing there.

A call keeps a session consistent, and if it does not succeed the source is refused
(`Call.isRefusal`): a failure of the compiler itself is none of the outcomes.
-/

namespace DeskCalc

/-- A call on a session. -/
inductive Call
  | compile (text : String)
  | finish
  | reset
  | takeWarnings
  | compileAnswer (text : String)
deriving DecidableEq, Repr

namespace Call

/-- What a call comes to, and the session after it. -/
def run (s : Session) : Call → Except Stop Unit × Session
  | compile text => ((s.compile text).1.map fun _ => (), (s.compile text).2)
  | finish => s.finish
  | reset => (.ok (), s.reset)
  | takeWarnings => (.ok (), s.takeWarnings.2)
  | compileAnswer text => s.compileAnswer text

/-- The text that is compiled is one of `texts`, and an answer is compiled only while no function is
being defined. -/
def Allowed (texts : String → Prop) (s : Session) : Call → Prop
  | compile text => texts text
  | compileAnswer text => texts text ∧ s.target = Program.mainId
  | finish | reset | takeWarnings => True

end Call

/-- The second session comes out of `s` by calls. -/
inductive Session.Leads (texts : String → Prop) (s : Session) : Session → Prop
  | refl : Leads texts s s
  | call {t : Session} (h : Leads texts s t) {c : Call} (hc : c.Allowed texts t) :
      Leads texts s (c.run t).2

/-- The session comes out of a new one by calls. -/
def Session.Reachable (texts : String → Prop) (s : Session) : Prop :=
  ∃ options, (new options).Leads texts s

variable {B : Prop} {s t : Session} {texts : String → Prop} {c : Call} {e : Stop}

theorem Session.Reachable.new (options : Options) : (new options).Reachable texts :=
  ⟨options, .refl⟩

theorem Session.Reachable.compile {text : String} (h : s.Reachable texts) (ht : texts text) :
    (s.compile text).2.Reachable texts :=
  h.imp fun _ hs => hs.call (c := .compile text) ht

/-! ## Refusals -/

namespace Session

variable {text : String}

theorem compile_of_ok {status : Status} {q : Pass}
    (h : Compile.chunk (Pass.start s text) = .ok status q) :
    s.compile text = (.ok status, q.toSession) := by
  simp only [Session.compile, run, h]

theorem compile_of_error {q : Pass} (h : Compile.chunk (Pass.start s text) = .error e q) :
    ∃ t, s.compile text = (.error e, t) := by
  cases e <;> exact ⟨_, by simp only [Session.compile, run, h]; rfl⟩

theorem isRefusal_of_compile (h : s.Consistent B) (hshort : B → text.toList.length < wordBound)
    (he : (s.compile text).1 = .error e) :
    e.IsRefusal ∧ ∃ q, Compile.chunk (Pass.start s text) = .error e q ∧
      Recoverable B q.toSession ∧ (s.compile text).2 = q.reset := by
  rcases compile_cases h hshort with ⟨status, q, -, heq⟩ | ⟨d, q, hq, hrec, heq⟩ <;>
    rw [heq] at he ⊢ <;> cases he
  exact ⟨⟨d, rfl⟩, q, hq, hrec, rfl⟩

theorem isRefusal_of_finish (h : s.Consistent B) (he : s.finish.1 = .error e) : e.IsRefusal := by
  rcases finish_cases h with ⟨q, -, heq⟩ | ⟨d, q, -, -, heq⟩ <;> rw [heq] at he <;> cases he
  exact ⟨d, rfl⟩

theorem isRefusal_of_compileAnswer (he : (s.compileAnswer text).1 = .error e) : e.IsRefusal := by
  obtain ⟨u, is, q, -, ⟨-, heq⟩ | ⟨d, -, heq⟩⟩ := compileAnswer_cases s text <;> rw [heq] at he <;>
    cases he
  exact ⟨d, rfl⟩

end Session

/-- **A call that does not succeed refuses the source.** -/
theorem Call.isRefusal (h : s.Consistent False) (he : (c.run s).1 = .error e) : e.IsRefusal := by
  cases c with
  | compile text =>
    cases hs : (s.compile text).1 with
    | ok status => simp [run, hs, Except.map] at he
    | error e' =>
      simp only [run, hs, Except.map, Except.error.injEq] at he
      exact he ▸ (Session.isRefusal_of_compile h False.elim hs).1
  | finish => exact Session.isRefusal_of_finish h he
  | reset | takeWarnings => cases he
  | compileAnswer text => exact Session.isRefusal_of_compileAnswer he

/-! ## Consistency -/

theorem Call.consistent (h : s.Consistent B) (hc : c.Allowed texts s)
    (hshort : B → ∀ text, texts text → text.toList.length < wordBound) :
    (c.run s).2.Consistent B := by
  cases c with
  | compile text => exact (Session.consistent_compile h text fun hB => hshort hB _ hc).1
  | finish => exact Session.consistent_finish h
  | reset => exact Session.consistent_reset h.recoverable
  | takeWarnings =>
    obtain ⟨f, hf⟩ := h.writing
    exact ⟨⟨f, { hf with }⟩, h.balanced, h.declared⟩
  | compileAnswer text =>
    exact Session.consistent_compileAnswer h hc.2 text fun hB => hshort hB _ hc.1

theorem Session.Leads.consistent (h : s.Leads texts t) (hs : s.Consistent B)
    (hshort : B → ∀ text, texts text → text.toList.length < wordBound) : t.Consistent B := by
  induction h with
  | refl => exact hs
  | call _ hc ih => exact Call.consistent ih hc hshort

/-- **Every session that can be reached is consistent.** -/
theorem Session.Reachable.consistent (h : s.Reachable texts)
    (hshort : B → ∀ text, texts text → text.toList.length < wordBound) : s.Consistent B :=
  h.choose_spec.consistent (consistent_new _) hshort

end DeskCalc
