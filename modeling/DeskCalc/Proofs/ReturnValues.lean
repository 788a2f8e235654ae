import DeskCalc.Proofs.Wording

/-!
# The values of `return`

Behind every `return` of an accepted text stands nothing, a pair of parentheses around nothing, or an
expression, and then the end of the statement (`Returned`). Where POSIX is enforced the first token
of the expression is an opening parenthesis and the last one a closing parenthesis. They need not
belong together.
-/

namespace DeskCalc

/-- Every `return` among the tokens `v`, with the tokens `behind` them, has its value and then the end
of the statement behind it. -/
def Returned (mode : Strictness) (v behind : List Token) : Prop :=
  ∀ a t b, v = a ++ t :: b → t.kind = .keyword .returnValue →
    ∃ value rest, b ++ behind = value ++ rest ∧ ReturnValue mode value ∧
      ∃ c ∈ rest.head?, c.kind.isStatementEnd = true

namespace Returned

variable {mode : Strictness} {v w behind : List Token}

/-- No `return` begins. -/
theorem of_quiet (h : ∀ k ∈ kindsOf v, k.isLead = false) : Returned mode v behind := by
  rintro a t b rfl ht
  have hmem : t ∈ a ++ t :: b := by simp
  have hlead := h _ (mem_kindsOf_of_mem hmem (by simp [ht]))
  rw [ht] at hlead
  cases hlead

theorem append (hv : Returned mode v (w ++ behind)) (hw : Returned mode w behind) :
    Returned mode (v ++ w) behind := by
  intro a t b hsplit ht
  rcases List.append_eq_append_iff.1 hsplit with ⟨a', -, rfl⟩ | ⟨c, rfl, hc⟩
  · exact hw a' t b rfl ht
  · cases c with
    | nil => exact hw [] t b hc.symm ht
    | cons t' c =>
      rw [List.cons_append] at hc
      obtain ⟨rfl, rfl⟩ := List.cons.inj hc
      rw [List.append_assoc]
      exact hv a t c rfl ht

end Returned

/-- **Every `return` that is read has its value behind it.** -/
theorem Wording.returned {mode : Strictness} {v behind : List Token}
    (h : Wording mode true true v behind) : Returned mode v behind := by
  induction h with
  | append _ _ hv hw => exact hv.append hw
  | mild _ hv => exact .of_quiet hv.quiet
  | heading _ hv => exact .of_quiet hv.quiet
  | @token t _ ht =>
    intro a t' b hsplit ht'
    have hmem : t' ∈ [t] := hsplit ▸ List.mem_append_right a List.mem_cons_self
    rw [← List.mem_singleton.1 hmem, ht'] at ht
    simp at ht
  | @returns t v behind ht hv hend =>
    intro a t' b hsplit ht'
    cases a with
    | nil =>
      obtain ⟨-, rfl⟩ := List.cons.inj hsplit
      exact ⟨v, behind, rfl, hv, hend⟩
    | cons t₀ a =>
      obtain ⟨-, rfl⟩ := List.cons.inj hsplit
      exact Returned.of_quiet hv.quiet a t' b rfl ht'

namespace Session

/-- **Where POSIX is enforced, the value of every `return` of an accepted text begins and ends with a
parenthesis**, unless it is parentheses around nothing. This is so of all that is read, which is the
whole text unless the chunk ends with a `quit`. The session may be anywhere. -/
theorem return_values_enclosed {s : Session} {f : Function}
    (hf : s.program.function? s.target = some f) (hstrict : s.strictness = .strict)
    (source : String) {status : Status} (haccepted : (s.compile source).1 = .ok status) :
    ∃ read unread, sourceTokens .strict source = read ++ unread ∧ Returned .strict read unread ∧
      (unread.map (·.kind) = [.eof] ∨
        status = .quit ∧ unread.head?.map (·.kind) = some (.keyword .quit)) := by
  have hwords := compile_wording (I := Returned .strict) hf haccepted
    (fun _ => .of_quiet (by simp)) fun v w behind hv hw => hv.append (hstrict ▸ hw).returned
  rwa [hstrict] at hwords

/-- A function that returns a sum of two values, each in its own parentheses. -/
def looseReturnText : String := "define f(x) \x7b\n return (x)+(x)\n\x7d\n"

theorem return_values_enclosed_sum :
    ((new { strictness := .strict }).compile looseReturnText).1 = .ok .ready ∧
      ∃ read unread, sourceTokens .strict looseReturnText = read ++ unread ∧
        Returned .strict read unread ∧ (unread.map (·.kind) = [.eof] ∨ Status.ready = .quit ∧
          unread.head?.map (·.kind) = some (.keyword .quit)) := by
  have haccepted : ((new { strictness := .strict }).compile looseReturnText).1 = .ok .ready := by
    decide +kernel
  exact ⟨haccepted, return_values_enclosed rfl rfl looseReturnText haccepted⟩

/-- The parentheses at the ends of an accepted value need not belong together. -/
theorem loose_return_accepted :
    ((new { strictness := .strict }).compile looseReturnText).1 = .ok .ready ∧
      ∃ before value behind, (sourceTokens .strict looseReturnText).map (·.kind) =
          before ++ .keyword .returnValue :: value ++ .newline :: behind ∧
        .newline ∉ value ∧
        ¬ ∃ w, value = .symbol .leftParen :: w ++ [.symbol .rightParen] ∧
          Bracket.paren.Balanced w := by
  refine ⟨by decide +kernel, [.keyword .define, .name, .symbol .leftParen, .name,
    .symbol .rightParen, .symbol .leftBrace, .newline],
    [.symbol .leftParen, .name, .symbol .rightParen, .symbol (.arith .plus), .symbol .leftParen,
      .name, .symbol .rightParen], [.symbol .rightBrace, .newline, .eof], by decide +kernel,
    by decide, ?_⟩
  rintro ⟨w, hw, hbalanced⟩
  obtain rfl : w = [.name, .symbol .rightParen, .symbol (.arith .plus), .symbol .leftParen,
      .name] :=
    (List.append_inj_left' (List.cons.inj hw).2 rfl).symm
  have hfirst := hbalanced.beginnings [.name, .symbol .rightParen] ⟨_, rfl⟩
  revert hfirst
  decide

end Session

end DeskCalc
