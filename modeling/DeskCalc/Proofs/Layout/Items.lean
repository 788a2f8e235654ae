import DeskCalc.Proofs.Chunks.Runs
import DeskCalc.Proofs.Layout.Closing

/-!
# Items and what they lead to

An item of a chunk is a statement without a body, a header, a brace, a line feed, or the decision
that an `if` gets no `else`. For each of them there is a lemma here. `LeadsTo Q p` says that some
items, one at least, lead from `p` to a pass with `Q`, unless a table is full.
-/

namespace DeskCalc

namespace Outline

/-- Where a statement inside the bodies `fs` begins. -/
def start (o : Outline) : List Opening → Outline
  | [] => o
  | f :: fs => (o.bodies fs).enter f

end Outline

namespace Compile

variable {p : Pass} {base o : Outline} {code code' : List Placed} {ps : List Nat} {n k m : Nat}
  {w : Word} {ws : List Word} {g : Sequel} {f : Opening} {fs : List Opening}
  {E : Stop → Pass → Prop}

/-! ## The ends of lines -/

/-- Line feeds may be read before a step. -/
theorem blocksStep_of_lines {q : Pass} (hq : q.previous = .newline ∨ k = 0 ∧ q = p)
    (hstep : p.previous.blocksStep = false) : q.previous.blocksStep = false := by
  rcases hq with hq | ⟨-, rfl⟩
  · rw [hq]
    rfl
  · exact hstep

theorem statementTail_here {Q : Unit → Pass → Prop}
    (h : p.Here ps o code n (lines k ++ w :: ws)) (hw : w.1.isBlank = false)
    (hQ : ∀ q, q.Here ps o code n (w :: ws) → (q.previous = .newline ∨ k = 0 ∧ q = p) → Q () q) :
    Ensures statementTail p Q OnlyShort := by
  rw [statementTail, ensures_bind]
  refine skipWhile_here k h rfl hw fun q hq hprevious => ?_
  simp only [ensures_bind, ensures_get, ensures_kind, ensures_ite, ensures_here, ensures_pure]
  split
  · exact report_here hq (hQ q hq hprevious)
  · exact hQ q hq hprevious

/-- The line feeds behind a closing brace, or behind an `else`, are read. -/
theorem statementTail_met {Q : Unit → Pass → Prop} (h : p.Met ps base n w ws k m g)
    (hg : g.Comes ps n w ws)
    (hQ : ∀ q, q.Met ps base n w ws 0 m g → Q () q) : Ensures statementTail p Q OnlyShort := by
  cases h with
  | rest hstep h =>
    exact statementTail_here h hg.solid fun q hq hq' =>
      hQ q (.rest (blocksStep_of_lines hq' hstep) hq)
  | waiting hfs hends helse hexit hstep h =>
    exact statementTail_here (k := 0) h hg.solid fun q hq hq' =>
      hQ q (.waiting hfs hends helse hexit (blocksStep_of_lines hq' hstep) hq)
  | @other _ fs code t j us hlines hstep h =>
    obtain ⟨i, v, vs, hws, hv⟩ := hg.body rfl
    have hline : v.1 ≠ .newline := by
      rintro heq
      rw [heq] at hv
      cases hv
    obtain ⟨d, -, rfl⟩ := exists_lines_of_append hline (hws.symm.trans hlines)
    exact statementTail_here h hv fun q hq hq' =>
      hQ q (.other hws (blocksStep_of_lines hq' hstep) hq)

/-! ## Plain statements -/

theorem plainStatement_of_head {Q : Unit → Pass → Prop} (hk : p.token.kind ≠ .symbol .semicolon)
    (hquit : p.token.kind ≠ .keyword .quit)
    (h : Ensures (statementHead p.token.kind) p (fun _ q => Ensures (plainEnd p.blocks) q Q E) E) :
    Ensures plainStatement p Q E := by
  have hfrom : plainFrom p.token.kind = (do
      let blocks := (← get).blocks
      statementHead p.token.kind
      plainEnd blocks) := by
    unfold plainFrom
    split
    · next heq => exact absurd heq hk
    · next heq => exact absurd heq hquit
    · rfl
  rw [Ensures, plainStatement_eq, hfrom]
  exact (ensures_bind _ _).2 (ensures_get.2 ((ensures_bind _ _).2 h))

/-- **A statement without a body**, and the line feeds behind it. -/
theorem plainStatement_simple {Q : Unit → Pass → Prop} {s : Simple} {inLoop inFunc : Bool}
    {loop : Targets} (hs : s.wellFormed inLoop inFunc = true)
    (ho : o.Allows ps inLoop inFunc loop)
    (h : p.Here ps o code n (s.words ++ lines (k + 1) ++ w :: ws)) (hw : w.1.isBlank = false)
    (hprevious : p.Unblocked)
    (hQ : ∀ q, q.Here ps o (code ++ s.layout loop) n (w :: ws) → q.previous = .newline → Q () q) :
    Ensures plainStatement p Q OnlyShort := by
  obtain ⟨v, vs, hv, hopens⟩ := s.exists_words_eq hs
  have hkind : p.token.kind = v.1 := Pass.kind_of_words (h.words.trans (by rw [hv]; rfl))
  rw [← hkind] at hopens
  refine plainStatement_of_head (Token.Kind.ne_of_opensStatement hopens rfl)
    (Token.Kind.ne_of_opensStatement hopens rfl) ?_
  rw [List.append_assoc, lines_succ, List.cons_append] at h
  refine statementHead_here hs ho h hprevious fun q hq => ?_
  have hdelimited : isDelimited q = true := isDelimited_of_newline hq.kind_eq
  simp only [plainEnd, ensures_bind, ensures_get, ensures_atDelimiter, ensures_ite, hdelimited,
    Bool.not_true, Bool.and_false, Bool.false_eq_true, if_false]
  exact statementTail_here (k := k + 1) hq hw fun r hr hr' =>
    hQ r hr (hr'.resolve_right fun h => Nat.succ_ne_zero k h.1)

/-- A statement that opens or closes something needs no delimiter. -/
theorem plainEnd_of_blocks {Q : Unit → Pass → Prop} {blocks : BlockStack}
    (h : blocks.depth ≠ p.blocks.depth ∨ blocks.top ≠ p.blocks.top)
    (hQ : Ensures statementTail p Q E) : Ensures (plainEnd blocks) p Q E := by
  rw [Ensures, plainEnd_of_ne h]
  exact hQ

/-- **A header**, and the line feeds behind it. -/
theorem plainStatement_header {Q : Unit → Pass → Prop} {n' : Nat}
    (hopens : p.token.kind.opensStatement = true) (hp : p.blocks = o.blocks)
    (hhead : ∀ R : Unit → Pass → Prop,
      (∀ q, q.Here ps (o.enter f) code' n' (lines k ++ w :: ws) → R () q) →
      Ensures (statementHead p.token.kind) p R OnlyShort) (hw : w.1.isBlank = false)
    (hQ : ∀ q, q.Here ps (o.enter f) code' n' (w :: ws) → (q.previous = .newline ∨ k = 0) →
      Q () q) :
    Ensures plainStatement p Q OnlyShort := by
  refine plainStatement_of_head (Token.Kind.ne_of_opensStatement hopens rfl)
    (Token.Kind.ne_of_opensStatement hopens rfl) (hhead _ fun q hq => ?_)
  refine plainEnd_of_blocks (.inl ?_)
    (statementTail_here hq hw fun r hr hprevious => hQ r hr (hprevious.imp_right And.left))
  rw [hp, hq.blocks_eq]
  exact Nat.ne_of_lt (Nat.lt_succ_self _)

theorem plainStatement_rightBrace {Q : Unit → Pass → Prop} (hbrace : o.blocks.top.brace = true)
    (hm : 0 < m) (hdepth : base.blocks.depth + m ≤ o.blocks.depth)
    (h : p.Here ps o code n (Symbol.word .rightBrace :: (lines k ++ w :: ws)))
    (hk : FollowsBrace k w o.blocks.top) (hg : g.Comes ps n w ws)
    (hclose : ∀ q, q.Here ps o code n (lines k ++ w :: ws) → q.previous.blocksStep = false →
      Ensures (closeBodies true) q (fun b r => b = false ∧ r.Met ps base n w ws k m g) OnlyShort)
    (hQ : ∀ q, q.Met ps base n w ws 0 m g → Q () q) :
    Ensures plainStatement p Q OnlyShort := by
  have hkind : p.token.kind = .symbol .rightBrace := h.kind_eq
  have hpos : 0 < base.blocks.depth := Nat.succ_pos _
  refine plainStatement_of_head (by simp [hkind]) (by simp [hkind]) ?_
  rw [hkind]
  refine (endBody_of_closeBodies (by omega) h hk hclose).imp fun _ q hq => ?_
  refine plainEnd_of_blocks ?_ (statementTail_met hq hg hQ)
  rw [h.blocks_eq]
  exact hq.blocks_ne hbrace hm hdepth

/-! ## Items -/

theorem forbidAuto_here {Q : Unit → Pass → Prop} (h : p.Here ps o code n ws)
    (hQ : ∀ q, q.Here ps o code n ws → q.previous = p.previous → Q () q) :
    Ensures forbidAuto p Q E := by
  rw [forbidAuto, ensures_modify]
  refine hQ _ (h.congr rfl (fun f hf => ?_) rfl rfl h.outline h.awake) rfl
  exact hf.congr rfl rfl { hf.writing with }

/-- Where no body is awaited an item is a statement. -/
theorem item_of_not_awaited (hk : p.token.kind ≠ .keyword .define)
    (hawaited : p.blocks.top.awaited = false) : item p = innerStatement p := by
  rw [item_eq_statement hk, statement_eq, statementFrom, hawaited]
  split <;> rfl

/-- A statement that is not the whole of a body. -/
theorem item_of_plainStatement {Q : Unit → Pass → Prop} (hw : BeginsBody w.1)
    (hdefine : w.1 ≠ .keyword .define) (hbase : base.IsBase) (h : p.Here ps base code n (w :: ws))
    (hQ : ∀ q, q.Here ps base code n (w :: ws) → q.previous = p.previous →
      Ensures plainStatement q Q E) : Ensures item p Q E := by
  have hawaited : p.blocks.top.awaited = false := h.blocks_eq ▸ hbase.awaited
  have hended : p.blocks.top.ifEnded = false := h.blocks_eq ▸ hbase.ifEnded
  rw [← h.kind_eq] at hw hdefine
  rw [Ensures, item_of_not_awaited hdefine hawaited, innerStatement_of_beginsBody hw hended]
  exact (ensures_bind _ _).2 (forbidAuto_here h hQ)

/-- The block of a body that is awaited. -/
theorem top_enter (o : Outline) (f : Opening) :
    (o.enter f).blocks.top.awaited = true ∧ (o.enter f).blocks.top.brace = false ∧
      (o.enter f).blocks.top.funcBody = false ∧ (o.enter f).blocks.top.ifEnded = false := by
  cases f <;> exact ⟨rfl, rfl, rfl, rfl⟩

/-- A body begins. -/
theorem bodyBegun_here {brace : Bool} (h : p.Here ps { o.enter f with
      blocks := (o.enter f).blocks.modifyTop ({ · with brace := brace }) } code n ws) :
    (bodyBegun p).Here ps (o.inside f brace) code n ws := by
  have hblocks := h.blocks (p.blocks.modifyTop ({ · with awaited := false }))
  rw [h.blocks_eq] at hblocks
  rw [bodyBegun, h.blocks_eq]
  exact hblocks

/-- A statement that is a body. -/
theorem item_of_body {Q : Unit → Pass → Prop} (hw : BeginsBody w.1)
    (hdefine : w.1 ≠ .keyword .define) (h : p.Here ps (o.enter f) code n (w :: ws))
    (hQ : ∀ q, q.Here ps (o.inside f false) code n (w :: ws) → q.previous = p.previous →
      Ensures plainStatement q
        (fun _ r => Ensures (bodyEnd false (o.blocks.depth + 1)) r Q E) E) :
    Ensures item p Q E := by
  obtain ⟨hawaited, hbrace, -, hended⟩ := h.blocks_eq ▸ top_enter o f
  rw [← h.kind_eq] at hdefine
  have hkind := h.kind_eq
  obtain ⟨hline, hauto, helse, hopen⟩ := hkind ▸ hw
  rw [Ensures, item_eq_statement hdefine, statement_eq, statementFrom,
    if_neg (by simp [hline, hauto, helse, hended]), if_neg (by simp [hopen]),
    if_pos (by simp [hawaited, hbrace])]
  refine (ensures_bind _ _).2 (forbidAuto_here h fun q hq hprevious => ?_)
  have hsame : (o.enter f).blocks.modifyTop ({ · with brace := false }) = (o.enter f).blocks := by
    cases f <;> rfl
  have hbegun : (bodyBegun q).Here ps (o.inside f false) code n (w :: ws) := by
    refine bodyBegun_here ?_
    rw [hsame]
    exact hq
  have hfunc : q.blocks.top.funcBody = false := hq.blocks_eq ▸ (top_enter o f).2.2.1
  have hqdepth : q.blocks.depth = o.blocks.depth + 1 := by
    rw [hq.blocks_eq]
    rfl
  have hqended : (bodyBegun q).blocks.top.ifEnded = false := by
    rw [hbegun.blocks_eq]
    exact f.ifEnded_begun _ _
  rw [Ensures, body_eq, if_neg (by simp [hfunc]), hqdepth]
  refine (ensures_bind _ _).2 ?_
  rw [Ensures, innerStatement_of_beginsBody (hbegun.kind_eq ▸ hw) hqended]
  refine (ensures_bind _ _).2 (forbidAuto_here hbegun fun r hr hprevious' => hQ r hr ?_)
  exact hprevious'.trans hprevious

/-- The words that begin a statement begin a body. -/
theorem beginsBody_of_opensStatement {k : Token.Kind} (hk : k.opensStatement = true) :
    BeginsBody k :=
  ⟨Token.Kind.ne_of_opensStatement hk rfl, Token.Kind.ne_of_opensStatement hk rfl,
    Token.Kind.ne_of_opensStatement hk rfl, Token.Kind.ne_of_opensStatement hk rfl⟩

/-- **A statement without a body** ends the bodies whose only statement it is. -/
theorem item_simple {s : Simple} {inLoop inFunc : Bool} {loop : Targets} (hbase : base.IsBase)
    (hs : s.wellFormed inLoop inFunc = true)
    (ho : (base.bodies fs).Allows ps inLoop inFunc loop)
    (h : p.Here ps (base.start fs) code n (s.words ++ lines (k + 1) ++ w :: ws))
    (hprevious : p.Unblocked) (hg : g.Comes ps n w ws)
    (hends : Unwinds ps g fs (code ++ s.layout loop)) :
    Ensures item p (fun _ q => q.Met ps base n w ws 0 fs.length g) OnlyShort := by
  obtain ⟨v, vs, hv, hopens⟩ := s.exists_words_eq hs
  have hwords : s.words ++ lines (k + 1) ++ w :: ws = v :: (vs ++ lines (k + 1) ++ w :: ws) := by
    rw [hv]
    rfl
  have hbegins := beginsBody_of_opensStatement hopens
  have hdefine : v.1 ≠ .keyword .define := Token.Kind.ne_of_opensStatement hopens rfl
  rw [hwords] at h
  have hunblocked {q : Pass} (hkind : q.token.kind = v.1) (hstep : q.previous = p.previous) :
      q.Unblocked := fun up hk => hstep ▸ hprevious up (h.kind_eq.trans (hkind.symm.trans hk))
  cases fs with
  | nil =>
    refine item_of_plainStatement hbegins hdefine hbase h fun q hq hstep => ?_
    have hfree := hunblocked hq.kind_eq hstep
    rw [← hwords] at hq
    refine plainStatement_simple hs ho hq hg.solid hfree fun r hr hr' => ?_
    cases hends
    exact .rest (by rw [hr']; rfl) hr
  | cons f fs =>
    refine item_of_body hbegins hdefine h fun q hq hstep => ?_
    have hfree := hunblocked hq.kind_eq hstep
    rw [← hwords] at hq
    refine plainStatement_simple hs ho hq hg.solid hfree fun r hr hr' => ?_
    have hblocks : r.blocks = ((base.bodies fs).inside f false).blocks := hr.blocks_eq
    have hawaited : r.blocks.top.awaited = false := by
      rw [hblocks]
      rfl
    have hdepth : (base.bodies fs).blocks.depth + 1 ≤ r.blocks.depth := by
      rw [hblocks]
      exact Nat.le_refl _
    simp only [bodyEnd, ensures_bind, ensures_get, ensures_ite, hr.quitting_eq, hawaited, hdepth]
    exact endBody_here hbase hr (by rw [hr']; rfl) hends hg fun q hq => hq

/-- **A header** opens a body. -/
theorem item_header {v : Word} {vs : List Word} {n' : Nat} (hbase : base.IsBase)
    (hopens : v.1.opensStatement = true) (h : p.Here ps (base.start fs) code n (v :: vs))
    (hhead : ∀ q (R : Unit → Pass → Prop), q.Here ps (base.bodies fs) code n (v :: vs) →
      (∀ r, r.Here ps ((base.bodies fs).enter f) code' n' (lines k ++ w :: ws) → R () r) →
      Ensures (statementHead v.1) q R OnlyShort) (hw : w.1.isBlank = false) :
    Ensures item p (fun _ q => q.Here ps ((base.bodies fs).enter f) code' n' (w :: ws) ∧
      (q.previous = .newline ∨ k = 0)) OnlyShort := by
  have hbegins := beginsBody_of_opensStatement hopens
  have hdefine : v.1 ≠ .keyword .define := Token.Kind.ne_of_opensStatement hopens rfl
  have hplain (q : Pass) (Q : Unit → Pass → Prop) (hq : q.Here ps (base.bodies fs) code n (v :: vs))
      (hQ : ∀ r, r.Here ps ((base.bodies fs).enter f) code' n' (w :: ws) →
        (r.previous = .newline ∨ k = 0) → Q () r) : Ensures plainStatement q Q OnlyShort := by
    refine plainStatement_header (hq.kind_eq ▸ hopens) hq.blocks_eq (fun R hR => ?_) hw hQ
    rw [hq.kind_eq]
    exact hhead q R hq hR
  cases fs with
  | nil =>
    refine item_of_plainStatement hbegins hdefine hbase h fun q hq _ => ?_
    exact hplain q _ hq fun r hr hprevious => ⟨hr, hprevious⟩
  | cons f' fs =>
    refine item_of_body hbegins hdefine h fun q hq _ => hplain q _ hq fun r hr hprevious => ?_
    have hawaited : r.blocks.top.awaited = true := hr.blocks_eq ▸ (top_enter _ f).1
    simp only [bodyEnd, ensures_bind, ensures_get, ensures_ite, hawaited]
    simpa using ⟨hr, hprevious⟩

/-- The brace of a body is read together with what stands behind it. -/
theorem item_leftBrace {Q : Unit → Pass → Prop}
    (h : p.Here ps (o.enter f) code n (Symbol.word .leftBrace :: w :: ws))
    (hdefine : w.1 ≠ .keyword .define)
    (hQ : ∀ q, q.Here ps (o.inside f true) code n (w :: ws) → q.previous = .symbol .leftBrace →
      Ensures item q Q OnlyShort) : Ensures item p Q OnlyShort := by
  obtain ⟨hawaited, -, hfunc, hended⟩ := h.blocks_eq ▸ top_enter o f
  have hkind : p.token.kind = .symbol .leftBrace := h.kind_eq
  rw [Ensures, item_eq_statement (by simp [hkind]), statement_eq, statementFrom,
    if_neg (by simp [hkind, hended]), if_pos (by simp [hkind, hawaited])]
  refine (ensures_bind _ _).2 (forbidAuto_here h fun q hq _ => ?_)
  refine (ensures_bind _ _).2 (modifyBlocks_here hq _ fun q hq _ => ?_)
  refine (ensures_bind _ _).2 (advance_here hq (by simp) fun q hq hprevious => ?_)
  have hbegun := bodyBegun_here hq
  have hqfunc : q.blocks.top.funcBody = false := by
    rw [hq.blocks_eq]
    exact (top_enter o f).2.2.1
  have hitem : item (bodyBegun q) = innerStatement (bodyBegun q) := by
    refine item_of_not_awaited (hbegun.kind_eq ▸ hdefine) ?_
    rw [hbegun.blocks_eq]
    rfl
  rw [Ensures, body_eq, if_neg (by simp [hqfunc]), bodyEnd_true, bind_pure_unit, ← hitem]
  exact hQ (bodyBegun q) hbegun hprevious

/-- A brace that is no body. -/
theorem item_brace {Q : Unit → Pass → Prop} (hbase : base.IsBase)
    (h : p.Here ps base code n (Symbol.word .leftBrace :: ws))
    (hQ : ∀ q, q.Here ps base.brace code n ws → q.previous = .symbol .leftBrace → Q () q) :
    Ensures item p Q OnlyShort := by
  have hawaited : p.blocks.top.awaited = false := h.blocks_eq ▸ hbase.awaited
  have hkind : p.token.kind = .symbol .leftBrace := h.kind_eq
  rw [Ensures, item_of_not_awaited (by simp [hkind]) hawaited, innerStatement_eq, hkind]
  refine (ensures_bind _ _).2 (forbidAuto_here h fun q hq _ => ?_)
  have hended : q.blocks.top.ifEnded = false := hq.blocks_eq ▸ hbase.ifEnded
  rw [ensures_bind, ensures_topBlock, if_neg (by simp [hended]), if_pos rfl, ensures_bind]
  refine modifyBlocks_here hq _ fun q hq _ => advance_here hq (by simp) fun r hr hprevious => ?_
  exact hQ r hr hprevious

theorem beginsBody_rightBrace : BeginsBody (Symbol.word .rightBrace).1 :=
  ⟨by simp, by simp, by simp, by simp⟩

/-- **The closing brace of a body** ends other bodies with it. -/
theorem item_rightBrace (hbase : base.IsBase)
    (h : p.Here ps ((base.bodies fs).inside f true) code n
      (Symbol.word .rightBrace :: (lines k ++ w :: ws)))
    (hk : 0 < k ∨ g.isElse = true ∧ f.isBranch = true) (hg : g.Comes ps n w ws)
    (hends : Unwinds ps g (f :: fs) code) :
    Ensures item p (fun _ q => q.Met ps base n w ws 0 (fs.length + 1) g) OnlyShort := by
  have hfollows : FollowsBrace k w ((base.bodies fs).inside f true).blocks.top := by
    refine hk.imp_right fun ⟨helse, hbranch⟩ => ⟨hg.isElse.2 helse, ?_⟩
    obtain ⟨exit, rfl⟩ := Opening.eq_branch hbranch
    exact ⟨rfl, rfl⟩
  have hdepth : base.blocks.depth + (fs.length + 1) ≤
      ((base.bodies fs).inside f true).blocks.depth := by
    have := base.depth_bodies fs
    change _ ≤ (base.bodies fs).blocks.depth + 1
    omega
  refine item_of_plainStatement beginsBody_rightBrace (by simp) (.inside _ f) h fun q hq _ => ?_
  exact plainStatement_rightBrace rfl (Nat.succ_pos _) hdepth hq hfollows hg
    (fun r hr hr' => closeBodies_here hbase hr hr' hends hg) fun r hr => hr

/-- The closing brace of a mere brace. -/
theorem item_rightBrace_brace (hbase : base.IsBase)
    (h : p.Here ps base.brace code n (Symbol.word .rightBrace :: (lines (k + 1) ++ w :: ws)))
    (hg : Sequel.Comes ps n w ws (.rest code)) :
    Ensures item p (fun _ q => q.Met ps base n w ws 0 1 (.rest code)) OnlyShort := by
  refine item_of_plainStatement beginsBody_rightBrace (by simp) (.brace base) h fun q hq _ => ?_
  exact plainStatement_rightBrace rfl Nat.one_pos (Nat.le_refl _) hq (.inl (Nat.succ_pos k)) hg
    (fun r hr hr' => closeBodies_brace hbase hg hr hr') fun r hr => hr

/-- **No `else` comes**, and the bodies around the `if` end too. -/
theorem settleIf_here (hbase : base.IsBase) (hends : Unwinds ps g fs code)
    (hg : g.Comes ps n w ws) {exit : Nat}
    (hexit : ps[exit]? = some code.length) (hstep : p.previous.blocksStep = false)
    (h : p.Here ps ((base.bodies fs).waiting exit) code n (w :: ws)) :
    Ensures settleIf p (fun _ q => q.Met ps base n w ws 0 fs.length g) OnlyShort := by
  rw [settleIf, ensures_bind]
  refine endIf_here (Outline.ifEnded_bodies hbase fs) h hexit fun q hq hprevious => ?_
  simp only [ensures_bind, ensures_get, ensures_ite]
  cases fs with
  | nil =>
    cases hends
    have hstays : (q.blocks.depth > 1 && !q.blocks.top.brace) = false := by
      rw [hq.blocks_eq]
      rcases hbase with hidle | hbrace
      · rw [Outline.bodies, hidle]
        rfl
      · simp [Outline.bodies, hbrace.1]
    rw [hstays, if_neg Bool.false_ne_true]
    exact .rest (hprevious ▸ hstep) hq
  | cons f fs =>
    have hcloses : (q.blocks.depth > 1 && !q.blocks.top.brace) = true := by
      rw [hq.blocks_eq]
      simp only [Bool.and_eq_true, decide_eq_true_eq]
      exact ⟨Nat.succ_lt_succ (Nat.succ_pos _), rfl⟩
    rw [hcloses, if_pos rfl]
    exact endBody_here hbase hq (hprevious ▸ hstep) hends hg fun r hr => hr

theorem item_waiting (hbase : base.IsBase) (hends : Unwinds ps g fs code)
    (hg : g.Comes ps n w ws) (helse : g.isElse = false) {exit : Nat}
    (hexit : ps[exit]? = some code.length) (hstep : p.previous.blocksStep = false)
    (h : p.Here ps ((base.bodies fs).waiting exit) code n (w :: ws)) :
    Ensures item p (fun _ q => q.Met ps base n w ws 0 fs.length g) OnlyShort := by
  have hended : p.blocks.top.ifEnded = true := by
    rw [h.blocks_eq]
    rfl
  have hne : w.1 ≠ .keyword .elseBranch := fun he => by simp [hg.isElse.1 he] at helse
  have hdefine : w.1 ≠ .keyword .define := Token.Kind.ne_of_followsStatement hg.follows rfl
  have hauto : w.1 ≠ .keyword .autoDecl := Token.Kind.ne_of_followsStatement hg.follows rfl
  rw [Ensures, item_eq_statement (h.kind_eq ▸ hdefine), statement_eq, statementFrom,
    if_pos (.inr (.inr (.inr hended))), innerStatement_eq, h.kind_eq]
  have hinner : innerFrom w.1 = (do
      forbidAuto
      if (← topBlock).ifEnded then settleIf
      else if w.1 = .symbol .leftBrace then
        openBrace
        advance
      else plainStatement) := by
    unfold innerFrom
    split
    · next heq => exact absurd heq hg.ne_newline
    · next heq => exact absurd heq hauto
    · next heq => exact absurd heq hne
    · rfl
  rw [hinner]
  refine (ensures_bind _ _).2 (forbidAuto_here h fun q hq hprevious => ?_)
  have hqended : q.blocks.top.ifEnded = true := by
    rw [hq.blocks_eq]
    rfl
  rw [ensures_bind, ensures_topBlock, if_pos hqended]
  exact settleIf_here hbase hends hg hexit (hprevious ▸ hstep) hq

/-! ## Runs of items -/

/-- Some items, one at least, lead from the pass to passes with `Q`, unless a table is full. -/
inductive LeadsTo (Q : Pass → Prop) : Pass → Prop
  | step {p : Pass} (heof : p.token.kind ≠ .eof)
      (hshort : ∀ e q, item p = .error e q → e.IsShortage)
      (hquit : ∀ q, item p = .ok () q → q.quitting = false)
      (hnext : ∀ q, item p = .ok () q → q.Steady False → ¬Q (committed q) →
        LeadsTo Q (committed q)) : LeadsTo Q p

/-- The pass has `Q`, or items lead there. -/
def ComesTo (Q : Pass → Prop) (p : Pass) : Prop := Q p ∨ LeadsTo Q p

variable {Q R : Pass → Prop}

theorem leadsTo_of_item (heof : p.token.kind ≠ .eof)
    (h : Ensures item p (fun _ q => q.quitting = false ∧
      (q.Steady False → ComesTo Q (committed q))) OnlyShort) : LeadsTo Q p :=
  .step heof (fun _ _ hq => h.error hq) (fun _ hq => (h.ok hq).1)
    fun _ hq hsteady hQ => ((h.ok hq).2 hsteady).resolve_left hQ

theorem LeadsTo.ensures (h : LeadsTo Q p) : Ensures item p (fun _ q => q.quitting = false ∧
    (q.Steady False → ComesTo Q (committed q))) OnlyShort := by
  obtain ⟨-, hshort, hquit, hnext⟩ := h
  refine (ensures_self item).mono (fun _ q hq => ⟨hquit q hq, fun hsteady => ?_⟩) hshort
  by_cases hQ : Q (committed q)
  · exact .inl hQ
  · exact .inr (hnext q hq hsteady hQ)

theorem LeadsTo.then (h : LeadsTo Q p) (hR : ∀ q, Q q → ComesTo R q) : LeadsTo R p := by
  induction h with
  | step heof hshort hquit hnext ih =>
    refine .step heof hshort hquit fun q hq hsteady hnot => ?_
    by_cases hQ : Q (committed q)
    · exact (hR _ hQ).resolve_left hnot
    · exact ih q hq hsteady hQ

theorem ComesTo.then (h : ComesTo Q p) (hR : ∀ q, Q q → ComesTo R q) : ComesTo R p :=
  h.elim (hR p) fun h => .inr (h.then hR)

theorem ComesTo.leadsTo (h : ComesTo Q p) (hR : ∀ q, Q q → LeadsTo R q) : LeadsTo R p :=
  h.elim (hR p) fun h => h.then fun q hq => .inr (hR q hq)

/-- Nothing that is laid out changes between two items. -/
theorem committed_here (h : p.Here ps o code n ws) (hp : p.Steady False) :
    (committed p).Here ps o code n ws := by
  refine h.congr rfl (fun f hf => ?_) (Session.program_commit _) ?_ ?_ h.awake
  · exact hf.congr rfl rfl (Session.writing_commit hf.writing { hp.balanced with })
  · unfold committed Session.commit
    split <;> rfl
  · rw [← h.outline]
    unfold committed Session.commit
    split <;> rfl

theorem committed_met (h : p.Met ps base n w ws k m g) (hp : p.Steady False) :
    (committed p).Met ps base n w ws k m g := by
  cases h with
  | rest hstep h => exact .rest hstep (committed_here h hp)
  | waiting hfs hends hg hexit hstep h =>
    exact .waiting hfs hends hg hexit hstep (committed_here h hp)
  | other hlines hstep h => exact .other hlines hstep (committed_here h hp)

theorem quitting_of_met (h : p.Met ps base n w ws k m g) : p.quitting = false := by
  cases h with
  | rest _ h | waiting _ _ _ _ _ h | other _ _ h => exact h.quitting_eq

/-- An item after which a statement has ended. -/
theorem leadsTo_met (heof : p.token.kind ≠ .eof)
    (h : Ensures item p (fun _ q => q.Met ps base n w ws 0 m g) OnlyShort) :
    LeadsTo (fun q => ∃ m, q.Met ps base n w ws 0 m g) p := by
  refine leadsTo_of_item heof
    (h.imp fun _ q hq => ⟨quitting_of_met hq, fun hs => ?_⟩)
  exact .inl ⟨m, committed_met hq hs⟩

/-- **Before another statement everything that waits is settled.** -/
theorem comesTo_rest (hbase : base.IsBase) (hg : Sequel.Comes ps n w ws (.rest code))
    (heof : w.1 ≠ .eof) (h : p.Met ps base n w ws 0 m (.rest code)) :
    ComesTo (fun q => q.Here ps base code n (w :: ws) ∧ q.previous.blocksStep = false) p := by
  -- the induction is on the number of bodies the `if` that waits can stand in
  induction m using Nat.strongRecOn generalizing p with
  | _ m ih =>
    cases h with
    | rest hstep h => exact .inl ⟨h, hstep⟩
    | waiting hfs hends helse hexit hstep h =>
      have hitem := item_waiting hbase hends hg helse hexit hstep h
      refine .inr (leadsTo_of_item (h.kind_eq ▸ heof) (hitem.imp fun _ q hq => ?_))
      exact ⟨quitting_of_met hq, fun hs => ih _ hfs (committed_met hq hs)⟩

/-- Line feeds are read one by one. -/
theorem comesTo_lines (h : p.Here ps o code n (lines k ++ w :: ws)) :
    ComesTo (fun q => q.Here ps o code n (w :: ws) ∧ (q.previous = .newline ∨ k = 0 ∧ q = p))
      p := by
  induction k generalizing p with
  | zero => exact .inl ⟨h, .inr ⟨rfl, rfl⟩⟩
  | succ k ih =>
    have hkind : p.token.kind = .newline := h.kind_eq
    refine .inr (leadsTo_of_item (by simp [hkind]) ?_)
    rw [Ensures, item_of_newline hkind]
    refine advance_here h (by simp) fun q hq hnewline => ⟨hq.quitting_eq, fun hs => ?_⟩
    refine (ih (committed_here hq hs)).then fun r hr => .inl ⟨hr.1, .inl ?_⟩
    rcases hr.2 with hprevious | ⟨-, rfl⟩
    · exact hprevious
    · exact hnewline

end Compile

end DeskCalc
