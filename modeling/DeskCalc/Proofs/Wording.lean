import DeskCalc.Proofs.Sessions

/-!
# What a deed reads

The tokens that a deed reads are made of a few parts: headers, `return` with its value, braces, the
word `define` where a function begins, and tokens that are none of these (`Wording`). What holds of
the parts, and of the parts put together, holds of all that is read of an accepted text.
-/

namespace DeskCalc

/-- The token can end a statement. -/
def Token.Kind.isStatementEnd : Token.Kind → Bool
  | .newline | .eof | .symbol .semicolon | .symbol .rightBrace | .keyword .elseBranch => true
  | _ => false

theorem isStatementEnd_of_isDelimited {p : Pass} (h : Compile.isDelimited p = true) :
    p.token.kind.isStatementEnd = true := by
  unfold Compile.isDelimited at h
  unfold Token.Kind.isStatementEnd
  split at h <;> simp_all

/-- The tokens `v` with the tokens `behind` them. A function begins only if `anew`, and the word
`auto` stands there only if `early`. -/
inductive Wording (mode : Strictness) (anew early : Bool) : List Token → List Token → Prop
  | append {v w behind : List Token} (hv : Wording mode anew early v (w ++ behind))
      (hw : Wording mode anew early w behind) : Wording mode anew early (v ++ w) behind
  | mild {v : List Token} (behind : List Token) (hv : Mild mode (kindsOf v)) :
      Wording mode anew early v behind
  | heading {v : List Token} (behind : List Token) (hv : Heading mode (kindsOf v)) :
      Wording mode anew early v behind
  | token {t : Token} (behind : List Token) (ht : t.kind = .symbol .leftBrace ∨
      t.kind = .symbol .rightBrace ∨ anew = true ∧ t.kind = .keyword .define ∨
      early = true ∧ t.kind = .keyword .autoDecl) : Wording mode anew early [t] behind
  | returns {t : Token} {v behind : List Token} (ht : t.kind = .keyword .returnValue)
      (hv : ReturnValue mode v) (hend : ∃ c ∈ behind.head?, c.kind.isStatementEnd = true) :
      Wording mode anew early (t :: v) behind

variable {B : Option Trail} {p q : Pass} {v behind : List Token} {anew early : Bool}

theorem Wording.ne {mode : Strictness} {k : Keyword} (h : Wording mode anew early v behind)
    (hk : k = .define ∧ anew = false ∨ k = .autoDecl ∧ early = false) :
    ∀ t ∈ v, t.kind ≠ .keyword k := by
  have hlead : Token.Kind.isLead (.keyword k) = true ∧ k ≠ .returnValue := by
    rcases hk with ⟨rfl, -⟩ | ⟨rfl, -⟩ <;> simp [Token.Kind.isLead]
  have hquiet {u : List Token} (hu : ∀ k ∈ kindsOf u, k.isLead = false) (t : Token) (ht : t ∈ u) :
      t.kind ≠ .keyword k := fun hk => by
    have hnot := hu _ (mem_kindsOf_of_mem ht (by simp [hk]))
    rw [hk, hlead.1] at hnot
    cases hnot
  induction h with
  | append _ _ hv hw => exact List.forall_mem_append.2 ⟨hv, hw⟩
  | mild _ hv => exact hquiet hv.quiet
  | heading _ hv => exact hquiet hv.quiet
  | token _ ht =>
    rw [List.forall_mem_singleton]
    rcases ht with ht | ht | ht | ht <;> grind
  | returns ht hv => exact List.forall_mem_cons.2 ⟨by simp [ht, hlead.2.symm], hquiet hv.quiet⟩

theorem Ended.wording (h : Ended B p v q) : Wording p.strictness anew early v q.rest := by
  obtain ⟨left, hs, -⟩ := h.closed.shut
  exact .mild _ hs.mild

theorem Headed.wording (h : Headed B p v q)
    (hend : q.blocks = p.blocks → Compile.isDelimited q = true) :
    Wording p.strictness anew early v q.rest := by
  cases h with
  | stays _ _ hv hq =>
    cases hv with
    | mild hv => exact .mild _ hv
    | returns ht hv =>
      exact .returns ht hv ⟨q.token, rfl, isStatementEnd_of_isDelimited (hend hq.blocks)⟩
  | opens _ hv => exact .heading _ hv
  | alternative ht => exact .mild _ (.token ht rfl rfl)
  | closes _ _ ht _ hclosed =>
    obtain ⟨left, hs, -⟩ := hclosed.shut
    exact .append (v := [_]) (.token _ (by simp [ht])) (.mild _ hs.mild)

theorem Made.wording (h : Made B p v q) (hauto : p.autoAllowed = true → early = true) :
    Wording p.strictness anew early v q.rest := by
  cases h with
  | blank _ _ _ hv => exact .mild _ hv.mild
  | quit => exact .mild _ .nil
  | auto hallowed ht hv =>
    exact .append (v := [_]) (.token _ (by simp [ht, hauto hallowed])) (.mild _ hv)
  | plain hr hend hw hq => exact .append (hq.rest ▸ hr.wording hend) (.mild _ hw.mild)
  | settle => exact .mild _ .nil
  | @settleEnd _ r _ _ _ hr hq =>
    have hmode : r.strictness = p.strictness := hr.strictness
    exact hmode ▸ hq.wording
  | brace _ ht => exact .token _ (by simp [ht])

/-- **The words of a deed.** -/
theorem Deed.wording (h : Deed B p v q) : Wording p.strictness true true v q.rest := by
  cases h with
  | inner h => exact h.wording fun _ => rfl
  | enter ht => exact .token _ (by simp [ht])
  | bare hs h => exact hs.onward.strictness ▸ h.wording fun _ => rfl
  | ends hs h _ _ hq =>
    have hfirst : Wording _ true true _ _ := h.wording fun _ => rfl
    have hlast : Wording _ true true _ _ := hq.wording
    rw [hq.arrives.rest] at hfirst
    rw [h.onward.strictness] at hlast
    rw [← hs.onward.strictness]
    exact .append hfirst hlast
  | define _ _ ht hv => exact .append (v := [_]) (.token _ (by simp [ht])) (.mild _ hv)

/-- **The words of an accepted text**, as far as it is read. What holds of no words, and with some
words also of more of them, holds of all that are read. -/
theorem Session.compile_wording {s : Session} {f : Function} {I : List Token → List Token → Prop}
    (hf : s.program.function? s.target = some f) {source : String} {status : Status}
    (haccepted : (s.compile source).1 = .ok status) (hnil : ∀ behind, I [] behind)
    (happend : ∀ v w behind, I v (w ++ behind) → Wording s.strictness true true w behind →
      I (v ++ w) behind) :
    ∃ read unread, sourceTokens s.strictness source = read ++ unread ∧ I read unread ∧
      (unread.map (·.kind) = [.eof] ∨
        status = .quit ∧ unread.head?.map (·.kind) = some (.keyword .quit)) := by
  have hdeed (u v : List Token) (q r : Pass) (hq : I u q.rest ∧ q.strictness = s.strictness)
      (hr : Deed none q v r) : I (u ++ v) r.rest ∧ r.strictness = s.strictness :=
    ⟨happend u v r.rest (hr.onward.rest ▸ hq.1) (hq.2 ▸ hr.wording),
      hr.onward.strictness.trans hq.2⟩
  have hcommit (q : Pass) : q.toSession.commit.strictness = q.strictness := by
    unfold Session.commit
    split <;> rfl
  obtain ⟨u, q, ⟨hq, -⟩, -, -, htokens, hend⟩ := compile_deeds
    (I := fun u q => I u q.rest ∧ q.strictness = s.strictness) hf haccepted
    (fun q _ hmode _ _ _ => ⟨hnil _, hmode⟩) (fun u v q r hq _ => hdeed u v q r hq)
    fun u q hq => ⟨hq.1, (hcommit q).trans hq.2⟩
  refine ⟨u, q.rest, htokens, hq, hend.imp (fun h => h.2.2) fun h => ⟨h.1, ?_⟩⟩
  exact congrArg some h.2

end DeskCalc
