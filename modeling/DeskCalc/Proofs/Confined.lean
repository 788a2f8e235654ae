import DeskCalc.Proofs.Brackets.Accepted
import DeskCalc.Proofs.Wording

/-!
# Accepted texts compare as POSIX allows it

Where POSIX is enforced the words of every deed are `Confined`, whatever was open when the text
began. Behind a `quit` nothing is read. So what is read of an accepted text is confined:
`Session.comparisons_confined`.
-/

namespace DeskCalc

/-- **Where POSIX is enforced, the words of a deed compare as they may.** -/
theorem Wording.confined {v behind : List Token} (h : Wording .strict true true v behind) :
    Confined (kindsOf v) := by
  induction h with
  | append _ _ hv hw =>
    rw [kindsOf_append]
    exact hv.append hw
  | mild _ hv => exact hv.confined rfl
  | heading _ hv => exact hv.confined rfl
  | token _ ht =>
    refine confined_of_forall fun k hk => ?_
    obtain ⟨t, hmem, rfl, -⟩ := mem_kindsOf hk
    cases List.mem_singleton.1 hmem
    rcases ht with ht | ht | ⟨-, ht⟩ | ⟨-, ht⟩ <;> rw [ht] <;> rfl
  | returns ht hv =>
    rw [kindsOf_cons ht (by simp)]
    exact .other rfl (hv.confined rfl)

namespace Session

/-- **Where POSIX is enforced, an accepted text compares in conditions alone**, in each at most once
and not inside an argument or a subscript. This is so of all that is read, which is the whole text
unless the chunk ends with a `quit`. The session may be anywhere, also inside a function. -/
theorem comparisons_confined {s : Session} {f : Function}
    (hf : s.program.function? s.target = some f) (hstrict : s.strictness = .strict)
    (source : String) {status : Status} (haccepted : (s.compile source).1 = .ok status) :
    ∃ read unread, sourceKinds .strict source = read ++ unread ∧ Confined read ∧
      (unread = [.eof] ∨ status = .quit ∧ unread.head? = some (.keyword .quit)) := by
  obtain ⟨u, w, htokens, hu, hend⟩ := compile_wording (I := fun u _ => Confined (kindsOf u)) hf
    haccepted (fun _ => .nil) fun v w _ hv hw => by
      rw [kindsOf_append]
      exact hv.append (Wording.confined (hstrict ▸ hw))
  rw [hstrict] at htokens
  refine ⟨kindsOf u, kindsOf w, ?_, hu, ?_⟩
  · rw [← kindsOf_append]
    exact congrArg kindsOf htokens
  · rcases hend with heof | ⟨hstatus, hquit⟩
    · obtain ⟨t, rfl, ht⟩ := List.map_eq_singleton_iff.1 heof
      exact .inl (kindsOf_single ht (by simp))
    · obtain ⟨t, hhead, ht⟩ := Option.map_eq_some_iff.1 hquit
      obtain ⟨w', rfl⟩ := List.head?_eq_some_iff.1 hhead
      refine .inr ⟨hstatus, ?_⟩
      rw [kindsOf_cons ht (by simp)]
      rfl

/-- A condition in parentheses, inside a loop whose body calls a function. -/
def restrainedText : String := "for (i = 0; i < 9; i = i + 1) if ((a[i] == 0)) f(i)\n"

theorem comparisons_confined_loop :
    (new { strictness := .strict }).strictness = .strict ∧
      ((new { strictness := .strict }).compile restrainedText).1 = .ok .ready ∧
      ∃ read unread, sourceKinds .strict restrainedText = read ++ unread ∧ Confined read ∧
        (unread = [.eof] ∨ Status.ready = .quit ∧
          unread.head? = some (.keyword .quit)) := by
  have haccepted : ((new { strictness := .strict }).compile restrainedText).1 =
      .ok .ready := by decide +kernel
  exact ⟨rfl, haccepted, comparisons_confined rfl rfl restrainedText haccepted⟩

/-- A comparison that is no condition, behind a `quit`. -/
def unreadText : String := "quit\nx = a < b\n"

/-- Behind a `quit` an accepted text may compare anywhere. -/
theorem unread_comparison_accepted :
    ((new { strictness := .strict }).compile unreadText).1 = .ok .quit ∧
      ¬ Confined (sourceKinds .strict unreadText) := by
  refine ⟨by decide +kernel, fun h => ?_⟩
  have hkinds : sourceKinds .strict unreadText = [.keyword .quit, .name, .symbol (.assign none),
      .name, .symbol (.relation .lt), .name, .eof] := by decide +kernel
  have hcalm := h.compares_of_no_header (by rw [hkinds]; decide) (.symbol (.relation .lt))
  rw [hkinds] at hcalm
  cases hcalm (by decide)

end Session

end DeskCalc
