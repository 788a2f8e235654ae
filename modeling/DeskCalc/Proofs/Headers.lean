import DeskCalc.Proofs.Closing
import DeskCalc.Statement.Control
import DeskCalc.Statement.Define

/-!
# Headers and jumps

The header of a branch or a loop opens a body together with its labels, and it reads a `Heading`. A
jump, a `return` and a `print` leave what is open as it is, and each of them reads a `Phrase`. In
`forHeader` the labels get the indices that the jumps before them were given, because no expression
makes a label.
-/

namespace DeskCalc.Compile

variable {B : Option Trail} {due : Dues} {p q s : Pass} {f : Function} {stack : List Entry}
  {u : List Token} {o : Outline} {Q : Unit → Pass → Prop} {E : Stop → Pass → Prop}
  {stop : Token.Kind} {lead : List Token.Kind}

/-! ## Headers -/

/-- A body opens together with the labels its header has made. -/
theorem openBody_holds (h : p.Poised B) (hended : ∀ b ∈ B, p.blocks.top.ifEnded = false)
    (xs : List Exit) (cs : List Nat) {b : Block}
    (hq : q.Midway B p u { p.outline with
      exits := xs ++ p.outline.exits
      continues := cs ++ p.outline.continues } f [])
    (hb : (b.bodyIn p.blocks.top).Inside p.blocks.top) (hfunc : b.funcBody = false)
    (hbrace : b.brace = false) (hmark : b.ifEnded = false)
    (hxs : xs.map (·.isLoop) = b.exitKinds) (hcs : cs.length = b.loopBody.toNat)
    (hQ : ∀ c r, Block.Awaits c → r.Arrives B p u (p.blocks.push c) → Q () r) :
    Ensures (openBody b) q Q E := by
  refine modifyBlocks_holds hq fun r hr => ?_
  refine hQ _ r (Block.awaits_bodyIn hbrace hmark _) (hr.arrives (fun t ht => ?_) rfl)
  exact (h.balanced t ht).push (hended t ht) hb hfunc xs cs hxs hcs

/-- A jump that a value decides. -/
theorem emitJumpZero_holds {x : Entry} (h : p.Midway B s u o f [x] due) (hx : x.isScalar = true)
    {label : Nat} (hl : label < due.named ∨ label < f.labels.size)
    (hQ : ∀ q g, g.labels.size = f.labels.size → q.Midway B s u o g [] due → Q () q) :
    Ensures (emitJumpZero label) p Q E :=
  emitWith_holds h rfl (by simp [Opcode.step, Opcode.effect, Entry.takeScalars, hx])
    (names_of_lt h.function hl) hQ

/-- **The header of an `if`.** -/
theorem ifHeader_holds (h : p.Poised B) (hended : ∀ b ∈ B, p.blocks.top.ifEnded = false)
    (hk : p.token.kind = .keyword .ifBranch)
    (hQ : ∀ v b q, Heading p.strictness (kindsOf v) → Block.Awaits b →
      q.Arrives B p v (p.blocks.push b) → Q () q) :
    Ensures ifHeader p Q (Declines B) := by
  obtain ⟨f, hf⟩ := h.midway
  simp only [ifHeader, ensures_bind]
  refine advance_holds_kind hf hk (by simp) fun t₁ q₁ ht₁ h₁ => ?_
  refine expect_holds h₁ (by simp) fun t₂ q₂ ht₂ h₂ => ?_
  refine expression_holds h₂ rfl (fun _ => rfl) ?_
  rintro v e q₃ g₃ _ he ⟨x, hx, rfl⟩ - h₃
  refine expect_holds h₃ (by simp) fun t₄ q₄ ht₄ h₄ => ?_
  rw [ensures_nextLabel h₄.function]
  have hnamed := h₄.name (m := g₃.labels.size + 1) (Nat.zero_le _)
  refine emitJumpZero_holds hnamed hx (.inl (Nat.lt_succ_self _)) fun q₅ g₅ hg₅ h₅ => ?_
  refine openExit_holds h₅ fun q₆ g₆ hg₆ h₆ => ?_
  have hmade : g₃.labels.size + 1 ≤ max 0 g₆.labels.size := by omega
  refine openBody_holds h hended [_] [] (h₆.name hmade) (Block.inside_ifBody _) rfl rfl rfl rfl rfl
    fun b q hb hq => hQ _ b q ?_ hb hq
  simpa [kindsOf_cons ht₁, kindsOf_cons ht₂, kindsOf_single ht₄] using
    heading_of_condition (.inl rfl) he

/-- **The header of a `while`.** -/
theorem whileHeader_holds (h : p.Poised B) (hended : ∀ b ∈ B, p.blocks.top.ifEnded = false)
    (hk : p.token.kind = .keyword .whileLoop)
    (hQ : ∀ v b q, Heading p.strictness (kindsOf v) → Block.Awaits b →
      q.Arrives B p v (p.blocks.push b) → Q () q) :
    Ensures whileHeader p Q (Declines B) := by
  obtain ⟨f, hf⟩ := h.midway
  simp only [whileHeader, ensures_bind]
  refine advance_holds_kind hf hk (by simp) fun t₁ q₁ ht₁ h₁ => ?_
  refine expect_holds h₁ (by simp) fun t₂ q₂ ht₂ h₂ => ?_
  refine continueHere_holds h₂ fun q₃ g₃ _ h₃ => ?_
  refine openExit_holds h₃ fun q₄ g₄ hg₄ h₄ => ?_
  refine expression_holds h₄ rfl (fun _ => rfl) ?_
  rintro v e q₅ g₅ _ he ⟨x, hx, rfl⟩ hg₅ h₅
  refine expect_holds h₅ (by simp) fun t₆ q₆ ht₆ h₆ => ?_
  refine emitJumpZero_holds h₆ hx (.inr (by omega)) fun q₇ g₇ _ h₇ => ?_
  refine openBody_holds h hended [_] [_] h₇ (Block.inside_loopBody _) rfl rfl rfl rfl rfl
    fun b q hb hq => hQ _ b q ?_ hb hq
  simpa [kindsOf_cons ht₁, kindsOf_cons ht₂, kindsOf_single ht₆] using
    heading_of_condition (.inr rfl) he

section

variable (hlead : ClauseLead lead)
  (hopen : p.previous = .symbol .leftParen → lead = [.keyword .forLoop, .symbol .leftParen])
  (h : p.Midway B s u o f [] due)
include hlead hopen h

/-- A clause of a `for`. An empty one leaves what its fallback leaves. -/
theorem forClause_holds {ctx : Context} {ends : Ends} {fallback : Compile Unit}
    (harray : ctx.wholeArray = false) (hprinted : ctx.printed = false)
    (hfallback : ∀ (v : List Token) (q : Pass) (R : Unit → Pass → Prop),
      q.Midway B s v o f [] due →
      (∀ r g xs, Leaves ctx xs → g.labels.size = f.labels.size → r.Midway B s v o g xs due →
        R () r) → Ensures fallback q R (Declines B))
    (hQ : ∀ v q g xs, LoopClause s.strictness ctx.condition lead v → Leaves ctx xs →
      g.labels.size = f.labels.size → q.Midway B s (u ++ v) o g xs due → Q () q) :
    Ensures (forClause ctx ends stop fallback) p Q (Declines B) := by
  have hempty (v : List Token) (q : Pass) (hq : q.Midway B s (u ++ v) o f [] due)
      (hv : s.strictness ≠ .strict → LoopClause s.strictness ctx.condition lead v) (span : Span) :
      Ensures (do fallback; report .emptyForClause span) q Q (Declines B) := by
    rw [ensures_bind]
    refine hfallback _ q _ hq fun r g xs hxs hg hr => ?_
    exact report_holds hr fun hmode t ht => hQ v t g xs (hv hmode) hxs hg ht
  simp only [forClause, ensures_bind, ensures_here, ensures_isAt, ensures_ite, ensures_pure]
  split
  · refine (ensures_bind _ _).1 (hempty [] p (by simpa using h) (fun hmode => ?_) _)
    exact ⟨.of_plain .nil, List.forall_mem_nil _, List.not_mem_nil,
      fun hstrict => absurd hstrict hmode⟩
  · refine expressionOrEmpty_holds h harray (fun _ => hprinted) ?_ ?_
    · intro v e q g xs he hxs hg hq
      rw [List.append_nil] at hq
      exact hQ v q g xs he.loopClause hxs hg hq
    · intro n v q hv hn hq
      exact hempty v q hq (fun hmode => loopClause_of_empty hlead hv (fun h0 => hopen (hn h0)) hmode) _

/-- A clause whose value nobody wants. -/
theorem forClause_holds_dropped {ends : Ends}
    (hQ : ∀ v q g, LoopClause s.strictness false lead v → g.labels.size = f.labels.size →
      q.Midway B s (u ++ v) o g [] due → Q () q) :
    Ensures (forClause {} ends stop (pure ())) p Q (Declines B) := by
  refine forClause_holds hlead hopen h rfl rfl ?_ ?_
  · intro v q R hq hR
    exact hR q f [] rfl rfl hq
  · rintro v q g xs hv rfl hg hq
    exact hQ v q g hv hg hq

/-- The condition, which is true if it is left out. -/
theorem forClause_holds_condition {ends : Ends}
    (hQ : ∀ v q g x, LoopClause s.strictness true lead v → x.isScalar = true →
      g.labels.size = f.labels.size → q.Midway B s (u ++ v) o g [x] due → Q () q) :
    Ensures (forClause conditionContext ends stop (emit .one)) p Q (Declines B) := by
  refine forClause_holds hlead hopen h rfl rfl ?_ ?_
  · intro v q R hq hR
    refine emit_holds hq rfl rfl fun r g hg hr => ?_
    exact hR r g [.value] ⟨.value, rfl, rfl⟩ hg hr
  · rintro v q g xs hv ⟨x, hx, rfl⟩ hg hq
    exact hQ v q g x hv hx hg hq

end

theorem ensureLabel_holds {created expected : Nat} (h : created = expected) (hQ : Q () p) :
    Ensures (ensureLabel created expected) p Q E := by
  rw [ensureLabel, if_pos h]
  exact hQ

/-- **The header of a `for`.** -/
theorem forHeader_holds (h : p.Poised B) (hended : ∀ b ∈ B, p.blocks.top.ifEnded = false)
    (hk : p.token.kind = .keyword .forLoop)
    (hQ : ∀ v b q, Heading p.strictness (kindsOf v) → Block.Awaits b →
      q.Arrives B p v (p.blocks.push b) → Q () q) :
    Ensures forHeader p Q (Declines B) := by
  obtain ⟨f, hf⟩ := h.midway
  simp only [forHeader, ensures_bind]
  refine advance_holds_kind hf hk (by simp) fun t₁ q₁ ht₁ h₁ => ?_
  refine expect_holds h₁ (by simp) fun t₂ q₂ ht₂ h₂ => ?_
  refine forClause_holds_dropped .first (fun _ => rfl) h₂
    fun v₃ q₃ g₃ hv₃ _ h₃ => ?_
  refine expect_holds h₃ (by simp) fun t₄ q₄ ht₄ h₄ => ?_
  rw [ensures_nextLabel h₄.function]
  refine labelHere_holds h₄ fun q₅ g₅ hg₅ h₅ => ?_
  refine ensureLabel_holds rfl ?_
  have hfirst : (kindsOf v₃).count (.symbol .semicolon) = 0 := List.count_eq_zero.2 hv₃.undivided
  refine forClause_holds_condition (.later (hfirst.trans_le (Nat.zero_le 1)))
    (by simp [h₅.toFrom.previous_eq, ht₄]) h₅ fun v₆ q₆ g₆ x hv₆ hx hg₆ h₆ => ?_
  refine expect_holds h₆ (by simp) fun t₇ q₇ ht₇ h₇ => ?_
  -- three more labels are made, and two of them have jumps before that
  have hnamed := h₇.name (m := g₆.labels.size + 3) (Nat.zero_le _)
  refine emitJumpZero_holds hnamed hx (.inl ?_) fun q₈ g₈ hg₈ h₈ => ?_
  · show _ < g₆.labels.size + 3
    omega
  refine emitWith_holds h₈ rfl rfl (names_of_lt h₈.function (.inl ?_)) fun q₉ g₉ hg₉ h₉ => ?_
  · show _ < g₆.labels.size + 3
    omega
  refine continueHere_holds h₉ fun r₁ d₁ hd₁ k₁ => ?_
  refine ensureLabel_holds (by omega) ?_
  have hsecond : List.count (.symbol .semicolon)
      (kindsOf v₃ ++ [Token.Kind.symbol .semicolon] ++ kindsOf v₆) ≤ 1 := by
    simp [hfirst, List.count_eq_zero.2 hv₆.undivided]
  refine forClause_holds_dropped (.later hsecond) (by simp [k₁.toFrom.previous_eq, ht₇]) k₁
    fun v₂ r₂ d₂ hv₂ hd₂ k₂ => ?_
  rw [ensures_isAt, ensures_ite]
  split
  · next hparen =>
    simp only [ensures_bind]
    refine emitWith_holds k₂ rfl rfl (names_of_lt k₂.function (.inr (by omega)))
      fun r₃ d₃ hd₃ k₃ => ?_
    refine labelHere_holds k₃ fun r₄ d₄ hd₄ k₄ => ?_
    refine ensureLabel_holds (by omega) ?_
    refine openExit_holds k₄ fun r₅ d₅ hd₅ k₅ => ?_
    refine ensureLabel_holds (by omega) ?_
    have htoken : r₅.token.kind = .symbol .rightParen := by
      rw [k₂.toFrom.token_eq k₅.toFrom]
      exact beq_iff_eq.1 hparen
    have hmade : g₆.labels.size + 3 ≤ max 0 d₅.labels.size := by omega
    refine advance_holds_kind (k₅.name hmade) htoken (by simp) fun t₆ r₆ ht₆ k₆ => ?_
    refine openBody_holds h hended [_] [_] k₆ (Block.inside_loopBody _) rfl rfl rfl rfl rfl
      fun b q hb hq => hQ _ b q ?_ hb hq
    simpa [kindsOf_cons ht₁, kindsOf_cons ht₂, kindsOf_cons ht₄, kindsOf_cons ht₇,
      kindsOf_single ht₆] using heading_of_for hv₃ hv₆ hv₂
  · exact unexpected_holds k₂

/-! ## Statements that open nothing -/

/-- What is open is as before. -/
theorem arrives_of_midway (h : p.Poised B) (hq : q.Midway B p u p.outline f []) :
    q.Arrives B p u p.blocks := hq.arrives h.balanced rfl

/-- **Jumps out of a loop.** -/
theorem leaveLoop_holds (h : p.Poised B) {k : Keyword} (hk : p.token.kind = .keyword k)
    {label : Option Nat} {outside : Cause} (hl : ∀ l, label = some l → p.draft.Names 0 l)
    (hQ : ∀ t q, t.kind = .keyword k → q.Arrives B p [t] p.blocks → Q () q) :
    Ensures (leaveLoop label outside) p Q (Declines B) := by
  obtain ⟨f, hf⟩ := h.midway
  simp only [leaveLoop, ensures_bind, ensures_topBlock, ensures_ite, ensures_refuseHere]
  split
  · cases label with
    | none => exact hf.declines _
    | some label =>
      rw [ensures_bind]
      refine emitWith_holds hf rfl rfl (fun _ l hmem => hl l (List.mem_singleton.1 hmem ▸ rfl))
        fun q₁ g₁ _ h₁ => ?_
      rw [← hf.toFrom.token_eq h₁.toFrom] at hk
      refine advance_holds_kind h₁ hk (by simp) fun t q ht hq => ?_
      exact hQ t q ht (arrives_of_midway h hq)
  · exact hf.declines _

/-- **The statement `return`.** -/
theorem returnValue_holds (h : p.Poised B) (hk : p.token.kind = .keyword .returnValue)
    (hQ : ∀ t v q, t.kind = .keyword .returnValue → ReturnValue p.strictness v →
      q.Arrives B p (t :: v) p.blocks → Q () q) :
    Ensures returnValue p Q (Declines B) := by
  obtain ⟨f, hf⟩ := h.midway
  have hop : (if f.isVoid = true then Opcode.retVoid else .ret0).operandCount = 0 := by
    split <;> rfl
  have hrun : (if f.isVoid = true then Opcode.retVoid else .ret0).step [] [] = some [] := by
    split <;> rfl
  simp only [returnValue, ensures_bind, ensures_topBlock, ensures_ite, ensures_refuseHere,
    ensures_function hf.function, ensures_here]
  split
  · refine advance_holds_kind hf hk (by simp) fun t q ht hq => ?_
    have hempty (v : List Token) (r : Pass) (hv : ReturnValue p.strictness v)
        (hr : r.Midway B p (t :: v) p.outline f []) :
        Ensures (emit (if f.isVoid = true then .retVoid else .ret0)) r Q (Declines B) :=
      emit_holds hr hop hrun fun r' g _ hr' => hQ t v r' ht hv (arrives_of_midway h hr')
    simp only [ensures_isAt, ensures_atDelimiter]
    split
    · exact hempty [] q .none hq
    · refine expressionOrEmpty_holds hq rfl (fun _ => rfl) ?_ ?_
      · rintro v e r g _ he ⟨x, hx, rfl⟩ - hr
        have hret (r' : Pass) (hv : ReturnValue p.strictness v)
            (hr' : r'.Midway B p (t :: v) p.outline g [x]) : Ensures (emit .ret) r' Q (Declines B) := by
          have hpop : Opcode.ret.step [] [x] = some [] := by
            simp [Opcode.step, Opcode.effect, Entry.takeScalars, hx]
          exact emit_holds hr' rfl hpop fun r'' g' _ hr'' =>
            hQ t v r'' ht hv (arrives_of_midway h hr'')
        simp only [returned, ensures_bind, ensures_function hr.function, ensures_ite,
          ensures_refuse, ensures_get]
        split
        · exact hr.declines _
        split
        · next hparens =>
          -- the first token is the one behind `return`, and the last one was read last
          rw [Bool.and_eq_true, beq_iff_eq, beq_iff_eq] at hparens
          refine hret r (.value he fun _ => ⟨?_, ?_⟩) hr
          · rw [hq.toFrom.head?_eq hr.toFrom he.ne_nil]
            exact congrArg some hparens.1
          · rw [hr.toFrom.getLast?_eq he.ne_nil, hparens.2]
        · exact report_holds hr fun hmode r' hr' =>
            hret r' (.value he fun hstrict => absurd hstrict hmode) hr'
      · intro n v r hv hn hr
        cases n with
        | zero =>
          have hprevious := (hq.toFrom.previous_eq).symm.trans (hn rfl)
          cases ht.symm.trans hprevious
        | succ n => exact hempty v r (.empty n hv) hr
  · exact hf.declines _

/-- **The items of `print` and `stream`.** -/
theorem printItems_holds (h : p.Poised B) {k : Keyword} (hk : p.token.kind = .keyword k)
    (hother : Token.Kind.isOther (.keyword k) = true) {op : Opcode} (hop : op.operandCount = 0)
    (hrun : ∀ x : Entry, x.isScalar = true → op.step [] [x] = some [])
    (hQ : ∀ v q, v ≠ [] → Mild p.strictness (kindsOf v) → q.Arrives B p v p.blocks → Q () q) :
    Ensures (printItems op) p Q (Declines B) := by
  obtain ⟨f, hf⟩ := h.midway
  simp only [printItems, ensures_bind]
  refine advance_holds_kind hf hk (by simp) fun t q ht hq => ?_
  simp only [ensures_atDelimiter, ensures_ite, ensures_refuseHere]
  split
  · exact hq.declines _
  refine ensures_perToken (fun _ r => ∃ v g, Mild p.strictness (kindsOf v) ∧
    r.Midway B p v p.outline g []) ?_ ⟨[t], f, .token ht hother rfl, hq⟩
  rintro - r ⟨v, g, hv, hr⟩
  -- an item is on the stack, and the instruction takes it off
  have hitem (w : List Token) (s : Pass) (d : Function) (x : Entry) (hx : x.isScalar = true)
      (hne : w ≠ []) (hw : Mild p.strictness (kindsOf w))
      (hs : s.Midway B p (v ++ w) p.outline d [x]) (R : Unit ⊕ Unit → Pass → Prop)
      (hnext : ∀ u, (∃ v g, Mild p.strictness (kindsOf v) ∧ u.Midway B p v p.outline g []) ∧
        u.upcoming.length < r.upcoming.length → R (.inl ()) u)
      (hdone : ∀ u, Q () u → R (.inr ()) u) :
      Ensures (printNext op) s R (Declines B) := by
    rw [printNext, ensures_bind]
    refine emit_holds hs hop (hrun x hx) fun s' d' _ hs' => ?_
    have hmild : Mild p.strictness (kindsOf (v ++ w)) := by
      rw [kindsOf_append]
      exact hv.append hw
    simp only [ensures_bind, ensures_isAt, ensures_atDelimiter, ensures_ite, ensures_pure]
    split
    · next hcomma =>
      refine advance_holds_kind hs' (beq_iff_eq.1 hcomma) (by simp) fun c u hc hu => ?_
      simp only [ensures_refuseHere]
      split
      · exact hu.declines _
      · refine hnext u ⟨⟨_, d', ?_, hu⟩, ?_⟩
        · rw [kindsOf_append]
          exact hmild.append (.token hc rfl rfl)
        · rw [List.append_assoc] at hu
          exact hr.toFrom.length_lt hu.toFrom (by simp)
    split
    · exact hdone s' (hQ _ s' (by simp [hne]) hmild (arrives_of_midway h hs'))
    · exact unexpected_holds hs'
  rw [printStep, ensures_bind, ensures_isAt, ensures_ite]
  split
  · next hstring =>
    rw [ensures_bind]
    refine string_holds hr (beq_iff_eq.1 hstring) fun w s d hw _ hs => ?_
    refine hitem w s d .value rfl ?_ ?_ hs _ (fun _ => id) fun _ => id
    · rintro rfl
      cases hw
    · rw [hw]
      exact .single rfl rfl
  · rw [ensures_bind]
    refine expression_holds hr rfl (fun _ => rfl) ?_
    rintro w e s d _ he ⟨x, hx, rfl⟩ - hs
    exact hitem w s d x hx he.ne_nil he.mild hs _ (fun _ => id) fun _ => id

end DeskCalc.Compile
