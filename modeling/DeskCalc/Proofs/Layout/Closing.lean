import DeskCalc.Proofs.Layout.Statements

/-!
# The ends of statements

A statement ends every body without braces whose only statement it is. `Unwinds ps g fs code` says
what this does to the code, where `fs` are the openings of these bodies, the innermost first, and
`g` is what comes then: the next statement, or the `else` of one of the bodies.

The compiler does not always get there at once. If the body of an `if` ends it waits for an `else`,
and only the next word tells whether the statements around it end as well. Where it can be after
the end of a statement is `Pass.Met`.
-/

namespace DeskCalc

namespace Opening

/-- An `else` may follow. -/
def isBranch : Opening → Bool
  | branch _ => true
  | loop _ _ | other _ => false

theorem eq_branch {f : Opening} (h : f.isBranch = true) : ∃ exit, f = .branch exit := by
  cases f with
  | branch exit => exact ⟨exit, rfl⟩
  | loop | other => cases h

/-- The end of a body, where no `else` follows, makes the second code out of the first. -/
def Ends (ps : List Nat) : Opening → List Placed → List Placed → Prop
  | loop next exit, code, code' =>
    ∃ t, ps[next]? = some t ∧ code' = code ++ [.jump t] ∧ ps[exit]? = some code'.length
  | branch exit, code, code' | other exit, code, code' =>
    code' = code ∧ ps[exit]? = some code.length

/-- The block of a body that has begun. -/
def begun (f : Opening) (outer : Block) (brace : Bool) : Block :=
  { f.block.bodyIn outer with awaited := false, brace := brace }

variable (f : Opening) (outer : Block) (brace : Bool)

@[simp] theorem brace_begun : (f.begun outer brace).brace = brace := rfl

@[simp] theorem ifEnded_begun : (f.begun outer brace).ifEnded = false := by cases f <;> rfl

@[simp] theorem ifBody_begun : (f.begun outer brace).ifBody = f.isBranch := by cases f <;> rfl

end Opening

namespace Outline

/-- The body has begun. -/
def inside (o : Outline) (f : Opening) (brace : Bool) : Outline :=
  { o.enter f with blocks := o.blocks.push (f.begun o.blocks.top brace) }

/-- Bodies without braces have begun, the innermost one first in the list. -/
def bodies (o : Outline) : List Opening → Outline
  | [] => o
  | f :: fs => (o.bodies fs).inside f false

/-- A brace that is the body of nothing. -/
def brace (o : Outline) : Outline :=
  { o with blocks := o.blocks.push (Block.braceIn o.blocks.top) }

/-- An `if` has ended, and its label is still pending. -/
def waiting (o : Outline) (exit : Nat) : Outline :=
  { o with
    blocks := o.blocks.modifyTop ({ · with ifEnded := true })
    exits := ⟨exit, false⟩ :: o.exits }

/-- Statements follow one another here. -/
def IsBase (o : Outline) : Prop :=
  o.blocks = {} ∨
    o.blocks.top.brace = true ∧ o.blocks.top.awaited = false ∧ o.blocks.top.ifEnded = false

variable {o : Outline}

theorem IsBase.ifEnded (h : o.IsBase) : o.blocks.top.ifEnded = false := by
  rcases h with h | h
  · rw [h]
  · exact h.2.2

theorem IsBase.awaited (h : o.IsBase) : o.blocks.top.awaited = false := by
  rcases h with h | h
  · rw [h]
  · exact h.2.1

theorem IsBase.inside (o : Outline) (f : Opening) : (o.inside f true).IsBase :=
  .inr ⟨rfl, rfl, f.ifEnded_begun _ _⟩

theorem IsBase.brace (o : Outline) : o.brace.IsBase := .inr ⟨rfl, rfl, rfl⟩

theorem depth_bodies (o : Outline) (fs : List Opening) :
    (o.bodies fs).blocks.depth = o.blocks.depth + fs.length := by
  induction fs with
  | nil => rfl
  | cons f fs ih =>
    change (o.bodies fs).blocks.depth + 1 = _
    rw [ih]
    rfl

theorem ifEnded_bodies (h : o.IsBase) (fs : List Opening) :
    (o.bodies fs).blocks.top.ifEnded = false := by
  cases fs with
  | nil => exact h.ifEnded
  | cons f fs => exact f.ifEnded_begun _ _

end Outline

/-- What comes when a statement has ended, with the code written by then: another statement, or the
`else` of an `if` that stands inside the bodies `fs`, with the position behind its body. -/
inductive Sequel
  | rest (code : List Placed)
  | other (fs : List Opening) (code : List Placed) (target : Nat)

/-- An `else` comes next. -/
def Sequel.isElse : Sequel → Bool
  | rest _ => false
  | other _ _ _ => true

/-- The statement ends the bodies without braces around it. -/
inductive Unwinds (ps : List Nat) : Sequel → List Opening → List Placed → Prop
  | nil (code : List Placed) : Unwinds ps (.rest code) [] code
  | other {exit t : Nat} {fs : List Opening} {code : List Placed}
      (hexit : ps[exit]? = some (code.length + 1)) :
      Unwinds ps (.other fs code t) (.branch exit :: fs) code
  | cons {g : Sequel} {f : Opening} {fs : List Opening} {code code' : List Placed}
      (hf : g.isElse = true → f.isBranch = false) (hends : f.Ends ps code code')
      (h : Unwinds ps g fs code') : Unwinds ps g (f :: fs) code

/-- The words `w :: ws` are what comes next. If they are an `else` and its body, the next label lies
behind them. -/
structure Sequel.Comes (ps : List Nat) (n : Nat) (w : Word) (ws : List Word) (g : Sequel) :
    Prop where
  isElse : w.1 = .keyword .elseBranch ↔ g.isElse = true
  follows : w.1.followsStatement = true
  label : ∀ fs code t, g = .other fs code t → ps[n]? = some t
  body : g.isElse = true → ∃ i v vs, ws = lines i ++ v :: vs ∧ v.1.isBlank = false

theorem Token.Kind.isBlank_of_followsStatement {k : Token.Kind} (h : k.followsStatement = true) :
    k.isBlank = false := by
  cases hk : k.isBlank with
  | false => rfl
  | true =>
    simp only [isBlank, Bool.or_eq_true, beq_iff_eq] at hk
    rcases hk with rfl | rfl <;> cases h

namespace Sequel.Comes

variable {ps : List Nat} {n : Nat} {w : Word} {ws : List Word} {g : Sequel}

theorem solid (h : g.Comes ps n w ws) : w.1.isBlank = false :=
  Token.Kind.isBlank_of_followsStatement h.follows

theorem ne_newline (h : g.Comes ps n w ws) : w.1 ≠ .newline :=
  Token.Kind.ne_of_followsStatement h.follows rfl

end Sequel.Comes

/-- A statement has ended in `base`. Up to `k` line feeds are still to be read, and if an `if` waits
for its `else` it stands inside less than `m` bodies without braces. -/
inductive Pass.Met (ps : List Nat) (base : Outline) (n : Nat) (w : Word) (ws : List Word)
    (k m : Nat) : Sequel → Pass → Prop
  | rest {p : Pass} {code : List Placed} (hstep : p.previous.blocksStep = false)
      (h : p.Here ps base code n (lines k ++ w :: ws)) : Met ps base n w ws k m (.rest code) p
  | waiting {p : Pass} {g : Sequel} {fs : List Opening} {code : List Placed} {exit : Nat}
      (hfs : fs.length < m) (hends : Unwinds ps g fs code) (hg : g.isElse = false)
      (hexit : ps[exit]? = some code.length) (hstep : p.previous.blocksStep = false)
      (h : p.Here ps ((base.bodies fs).waiting exit) code n (w :: ws)) :
      Met ps base n w ws k m g p
  | other {p : Pass} {fs : List Opening} {code : List Placed} {t j : Nat} {us : List Word}
      (hlines : ws = lines j ++ us) (hstep : p.previous.blocksStep = false)
      (h : p.Here ps ((base.bodies fs).enter (.other n)) (code ++ [.jump t]) (n + 1) us) :
      Met ps base n w ws k m (.other fs code t) p

/-- The closing brace of a body leaves other blocks open. -/
theorem Pass.Met.blocks_ne {ps : List Nat} {base : Outline} {n k m : Nat} {w : Word}
    {ws : List Word} {g : Sequel} {p : Pass} (h : p.Met ps base n w ws k m g) {blocks : BlockStack}
    (hbrace : blocks.top.brace = true) (hm : 0 < m)
    (hdepth : base.blocks.depth + m ≤ blocks.depth) :
    blocks.depth ≠ p.blocks.depth ∨ blocks.top ≠ p.blocks.top := by
  cases h with
  | rest _ h =>
    left
    rw [h.blocks_eq]
    omega
  | @waiting _ _ fs _ _ hfs _ _ _ _ h =>
    have hwaits : p.blocks.depth = base.blocks.depth + fs.length := by
      rw [h.blocks_eq, ← base.depth_bodies]
      rfl
    left
    omega
  | other _ _ h =>
    right
    rintro heq
    rw [heq, h.blocks_eq] at hbrace
    cases hbrace

namespace Compile

variable {p : Pass} {base o : Outline} {code code' : List Placed} {ps : List Nat} {n k m : Nat}
  {w : Word} {ws : List Word} {g : Sequel} {f : Opening} {fs : List Opening}
  {E : Stop → Pass → Prop} {brace : Bool} {Q : Unit → Pass → Prop} {exit : Nat}

/-! ## The end of an `if` -/

theorem endIf_here (ho : o.blocks.top.ifEnded = false) (h : p.Here ps (o.waiting exit) code n ws)
    (hexit : ps[exit]? = some code.length)
    (hQ : ∀ q, q.Here ps o code n ws → q.previous = p.previous → Q () q) : Ensures endIf p Q E := by
  rw [endIf, ensures_bind]
  refine modifyBlocks_here h _ fun q hq hprevious =>
    resolveExit_here hq rfl hexit fun r hr hprevious' => hQ r ?_ (hprevious'.trans hprevious)
  have htop : ({ o.blocks.top with ifEnded := false } : Block) = o.blocks.top := by
    rw [← ho]
  have hsame : (o.waiting exit).blocks.modifyTop ({ · with ifEnded := false }) = o.blocks := by
    change (⟨{ o.blocks.top with ifEnded := false }, o.blocks.below⟩ : BlockStack) = _
    rw [htop]
  rw [hsame] at hr
  exact hr

/-- The `else` of an `if` that has ended. -/
theorem elseBranch_here {t : Nat} (ho : o.blocks.top.ifEnded = false)
    (h : p.Here ps (o.waiting exit) code n (w :: ws)) (hw : w.1 = .keyword .elseBranch)
    (hexit : ps[exit]? = some (code.length + 1)) (ht : ps[n]? = some t)
    (hQ : ∀ q, q.Here ps (o.enter (.other n)) (code ++ [.jump t]) (n + 1) ws →
      q.previous.blocksStep = false → Q () q) : Ensures elseBranch p Q OnlyShort := by
  have hended : p.blocks.top.ifEnded = true := by
    rw [h.blocks_eq]
    rfl
  simp only [elseBranch, ensures_bind, ensures_topBlock, ensures_ite, hended, if_true]
  refine nextLabel_here h (emitJump_here h ht fun q hq _ => ?_)
  refine endIf_here ho hq (by simpa using hexit) fun q hq _ =>
    openExit_here hq false fun q hq _ => ?_
  exact modifyBlocks_here hq _ fun q hq _ => advance_here hq (by simp [hw]) fun r hr hr' =>
    hQ r hr (by rw [hr', hw]; rfl)

/-- **The body of an `if` ends.** Its `else` is taken if it comes next. -/
theorem closeIf_here {Q : Bool → Pass → Prop} (ho : o.blocks.top.ifEnded = false)
    (h : p.Here ps (o.inside (.branch exit) brace) code n (lines k ++ w :: ws))
    (hline : w.1 ≠ .newline) (hstep : p.previous.blocksStep = false)
    (hwaits : w.1 ≠ .keyword .elseBranch →
      ∀ q, q.Here ps (o.waiting exit) code n (w :: ws) → q.previous.blocksStep = false → Q false q)
    (hother : w.1 = .keyword .elseBranch → ps[exit]? = some (code.length + 1) ∧
      ∃ t, ps[n]? = some t ∧ ∀ q, q.Here ps (o.enter (.other n)) (code ++ [.jump t]) (n + 1) ws →
        q.previous.blocksStep = false → Q true q) :
    Ensures (closeIf false) p Q OnlyShort := by
  simp only [closeIf, closeIfHere, lookForElse, skipNewlines, ensures_bind]
  refine skipWhile_here k h rfl (by simpa using hline) fun r hr hskip => ?_
  refine modifyBlocks_here hr _ fun t ht hclose => ?_
  rw [ensures_get, if_neg (by simp [ht.lenient])]
  simp only [ensures_bind, ensures_isAt, ensures_ite, ensures_pure]
  refine modifyBlocks_here ht _ fun q hq hmark => ?_
  have hq : q.Here ps (o.waiting exit) code n (w :: ws) := hq
  have hqstep : q.previous.blocksStep = false := by
    rw [hmark, hclose]
    rcases hskip with hskip | ⟨-, rfl⟩
    · rw [hskip]
      rfl
    · exact hstep
  rw [hq.kind_eq]
  by_cases hw : w.1 = .keyword .elseBranch
  · obtain ⟨hexit, t, ht, hQ⟩ := hother hw
    rw [if_pos (by simp [hw])]
    exact elseBranch_here ho hq hw hexit ht hQ
  · rw [if_neg (by simpa using hw), if_neg Bool.false_ne_true]
    exact hwaits hw q hq hqstep

/-! ## The end of a body -/

/-- **A loop or the body of an `else` ends.** -/
theorem closeInnermost_here {braced : Bool} (hf : f.isBranch = false)
    (h : p.Here ps (o.inside f brace) code n ws) (hends : f.Ends ps code code')
    (hQ : ∀ q, q.Here ps o code' n ws → q.previous = p.previous → Q () q) :
    Ensures (closeInnermost braced) p Q E := by
  simp only [closeInnermost, ensures_bind, ensures_topBlock, ensures_ite]
  cases f with
  | branch exit => cases hf
  | other exit =>
    obtain ⟨rfl, hexit⟩ := hends
    have htop : p.blocks.top.loopBody = false ∧ p.blocks.top.elseBody = true := by
      rw [h.blocks_eq]
      exact ⟨rfl, rfl⟩
    simp only [htop, Bool.false_or, if_true, Bool.false_eq_true, if_false]
    exact resolveExit_here h rfl hexit fun q hq hq' => modifyBlocks_here hq _ fun r hr hr' =>
      hQ r hr (hr'.trans hq')
  | loop next exit =>
    obtain ⟨t, hnext, rfl, hexit⟩ := hends
    have htop : p.blocks.top.loopBody = true := by
      rw [h.blocks_eq]
      rfl
    have hcontinues : p.continues = next :: o.continues := h.continues_eq
    rw [htop, Bool.true_or, if_pos rfl, if_pos rfl, ensures_get]
    simp only [hcontinues, ensures_bind, ensures_set]
    refine emitJump_here (h.continues o.continues) hnext fun t ht ht' => ?_
    exact resolveExit_here ht rfl hexit fun q hq hq' => modifyBlocks_here hq _ fun r hr hr' =>
      hQ r hr (hr'.trans (hq'.trans ht'))

theorem closeInnermost_branch {braced : Bool}
    (h : p.Here ps (o.inside (.branch exit) brace) code n ws) (hQ : Q () p) :
    Ensures (closeInnermost braced) p Q E := by
  have htop : p.blocks.top = (Opening.branch exit).begun o.blocks.top brace := by
    rw [h.blocks_eq]
    rfl
  simp only [closeInnermost, ensures_bind, ensures_topBlock, ensures_ite, htop, Opening.begun,
    Opening.block, Block.bodyIn]
  simpa using hQ

/-- The bodies around have been closed, or their closing goes on. -/
def ClosesOn (depth : Nat) (Q : Bool → Pass → Prop) : Closing ⊕ Bool → Pass → Prop
  | .inl c, q => q.blocks.depth < depth ∧
      ∀ bound : List Block, q.blocks.depth ≤ bound.length →
        Ensures (iterate closeOne bound c) q Q OnlyShort
  | .inr b, q => Q b q

theorem iterate_of_closesOn {Q : Bool → Pass → Prop} {c : Closing} {bound : List Block}
    (hb : p.blocks.depth ≤ bound.length)
    (h : Ensures (closeOne c) p (ClosesOn p.blocks.depth Q) OnlyShort) :
    Ensures (iterate closeOne bound c) p Q OnlyShort := by
  refine ensures_iterate_of_step (fun q => q.blocks.depth) hb (h.imp ?_)
  rintro (c | b) q hq <;> exact hq

/-- The end of a loop or of the body of an `else` may be the end of other bodies. -/
theorem closeOne_of_closeAround {R : Closing ⊕ Bool → Pass → Prop} (hf : f.isBranch = false)
    (h : p.Here ps (o.inside f brace) code n ws) (hends : f.Ends ps code code')
    (hR : ∀ q, q.Here ps o code' n ws → q.previous = p.previous →
      q.blocks.depth < p.blocks.depth →
      Ensures (closeAround ⟨brace, brace⟩ p.blocks.depth) q R OnlyShort) :
    Ensures (closeOne ⟨brace, brace⟩) p R OnlyShort := by
  rw [closeOne, ensures_ite, if_neg (by simp), ensures_bind, ensures_get, ensures_bind]
  refine closeInnermost_here hf h hends fun q hq hprevious => hR q hq hprevious ?_
  rw [h.blocks_eq, hq.blocks_eq]
  exact Nat.lt_succ_self _

/-- Behind the body of an `if` its `else` is taken, or it is waited for. -/
theorem closeAround_branch {c : Closing} {depth : Nat} (hbase : base.IsBase)
    (hc : (c.brace && !c.braced) = false)
    (h : p.Here ps ((base.bodies fs).inside (.branch exit) brace) code n (lines k ++ w :: ws))
    (hstep : p.previous.blocksStep = false) (hdepth : depth = p.blocks.depth ∨ brace = false)
    (hends : Unwinds ps g (.branch exit :: fs) code) (hg : g.Comes ps n w ws) (hm : fs.length < m) :
    Ensures (closeAround c depth) p
      (ClosesOn depth fun b q => b = false ∧ q.Met ps base n w ws k m g) OnlyShort := by
  have htop : p.blocks.top = (Opening.branch exit).begun (base.bodies fs).blocks.top brace := by
    rw [h.blocks_eq]
    rfl
  have hcond :
      (p.blocks.top.ifBody && (depth == p.blocks.depth || !p.blocks.top.brace)) = true := by
    rw [htop]
    rcases hdepth with rfl | rfl <;> simp [Opening.isBranch]
  simp only [closeAround, ensures_bind, ensures_get, ensures_ite, hcond, if_true, hc]
  refine closeIf_here (Outline.ifEnded_bodies hbase fs) h hg.ne_newline hstep
    (fun hw q hq hqstep => ?_) fun hw => ?_
  · have hended : q.blocks.top.ifEnded = true := by
      rw [hq.blocks_eq]
      rfl
    rw [Ensures, closeNext_eq, ending_of_ifEnded hended]
    have hrest : g.isElse = false := by simpa using fun he => hw (hg.isElse.2 he)
    cases hends with
    | other => cases hrest
    | cons _ hexit hends =>
      obtain ⟨rfl, hexit⟩ := hexit
      exact ⟨rfl, .waiting hm hends hrest hexit hqstep hq⟩
  · have helse := hg.isElse.1 hw
    cases hends with
    | other hexit =>
      refine ⟨hexit, _, hg.label _ _ _ rfl, fun q hq hqstep => ?_⟩
      rw [Ensures, closeNext_eq, ending_true]
      exact ⟨rfl, .other (j := 0) rfl hqstep hq⟩
    | cons hf => cases hf helse

/-- **The bodies without braces around a statement end with it.** -/
theorem closeAround_here (hbase : base.IsBase) (hends : Unwinds ps g fs code)
    (hg : g.Comes ps n w ws) (hm : fs.length ≤ m) {c : Closing} {depth : Nat}
    (hc : (c.brace && !c.braced) = false)
    (h : p.Here ps (base.bodies fs) code n (lines k ++ w :: ws))
    (hstep : p.previous.blocksStep = false) (hdepth : p.blocks.depth < depth) :
    Ensures (closeAround c depth) p
      (ClosesOn depth fun b q => b = false ∧ q.Met ps base n w ws k m g) OnlyShort := by
  induction hends generalizing p c depth with
  | nil code =>
    have htop : (p.blocks.top.ifBody && (depth == p.blocks.depth || !p.blocks.top.brace)) = false ∧
        ending false false p.blocks = .inr false := by
      rw [h.blocks_eq] at hdepth ⊢
      rcases hbase with hidle | ⟨hbrace, -, -⟩
      · rw [Outline.bodies, hidle]
        exact ⟨rfl, rfl⟩
      · rw [Outline.bodies] at hdepth ⊢
        simp [hbrace, ending, Nat.ne_of_gt hdepth]
    simp only [closeAround, ensures_bind, ensures_get, ensures_ite, htop.1, Bool.false_eq_true,
      if_false, ensures_pure, hc]
    rw [Ensures, closeNext_eq, htop.2]
    exact ⟨rfl, .rest hstep h⟩
  | other hexit => exact closeAround_branch hbase hc h hstep (.inr rfl) (.other hexit) hg hm
  | @cons g f fs code code' hf hends hrest ih =>
    cases hbranch : f.isBranch with
    | true =>
      obtain ⟨exit, rfl⟩ := Opening.eq_branch hbranch
      exact closeAround_branch hbase hc h hstep (.inr rfl) (.cons hf hends hrest) hg hm
    | false =>
      have htop : p.blocks.top = f.begun (base.bodies fs).blocks.top false := by
        rw [h.blocks_eq]
        rfl
      have hgoes : ending false false p.blocks = .inl ⟨false, false⟩ := by
        have hlt : p.blocks.depth > 1 := by
          rw [h.blocks_eq]
          exact Nat.succ_lt_succ (Nat.succ_pos _)
        rw [ending, htop]
        simp [hlt]
      simp only [closeAround, ensures_bind, ensures_get, ensures_ite, htop, f.ifBody_begun, hbranch,
        Bool.false_and, Bool.false_eq_true, if_false, ensures_pure, hc]
      rw [Ensures, closeNext_eq, hgoes]
      refine ⟨hdepth, fun bound hbound => iterate_of_closesOn hbound ?_⟩
      exact closeOne_of_closeAround hbranch h hends fun q hq hprevious hlt =>
        ih hg (Nat.le_of_succ_le hm) rfl hq (hprevious ▸ hstep) hlt

/-- **A body ends**, with whatever ends with it. -/
theorem closeBodies_here (hbase : base.IsBase)
    (h : p.Here ps ((base.bodies fs).inside f brace) code n (lines k ++ w :: ws))
    (hstep : p.previous.blocksStep = false) (hends : Unwinds ps g (f :: fs) code)
    (hg : g.Comes ps n w ws) : Ensures (closeBodies brace) p
      (fun b q => b = false ∧ q.Met ps base n w ws k (fs.length + 1) g) OnlyShort := by
  have htop : p.blocks.top.brace = brace := by
    rw [h.blocks_eq]
    rfl
  simp only [closeBodies, ensures_bind, ensures_get, htop]
  refine iterate_of_closesOn (Nat.le_refl _) ?_
  cases hbranch : f.isBranch with
  | true =>
    obtain ⟨exit, rfl⟩ := Opening.eq_branch hbranch
    rw [closeOne, ensures_ite, if_neg (by simp), ensures_bind, ensures_get, ensures_bind]
    exact closeInnermost_branch h
      (closeAround_branch hbase (by simp) h hstep (.inl rfl) hends hg (Nat.lt_succ_self _))
  | false =>
    cases hends with
    | other => cases hbranch
    | cons _ hends hrest =>
      exact closeOne_of_closeAround hbranch h hends fun q hq hprevious hlt =>
        closeAround_here hbase hrest hg (Nat.le_succ _) (by simp) hq (hprevious ▸ hstep) hlt

/-- The statement that is a whole body has ended. -/
theorem endBody_here (hbase : base.IsBase) (h : p.Here ps (base.bodies (f :: fs)) code n (w :: ws))
    (hstep : p.previous.blocksStep = false) (hends : Unwinds ps g (f :: fs) code)
    (hg : g.Comes ps n w ws) (hQ : ∀ q, q.Met ps base n w ws 0 (fs.length + 1) g → Q () q) :
    Ensures (endBody false) p Q OnlyShort := by
  have hdepth : ¬p.blocks.depth ≤ 1 := by
    rw [h.blocks_eq]
    exact Nat.not_le_of_lt (Nat.succ_lt_succ (Nat.succ_pos _))
  simp only [endBody, closeBehind, ensures_bind, ensures_get, ensures_ite, if_neg hdepth,
    Bool.false_eq_true, if_false, ensures_pure]
  refine (closeBodies_here (k := 0) hbase h hstep hends hg).imp ?_
  rintro b q ⟨rfl, hq⟩
  rw [Bool.and_false, if_neg Bool.false_ne_true]
  exact hQ q hq

/-! ## Closing braces -/

/-- What may follow a closing brace: the end of the line, or the `else` of the body that ends. -/
def FollowsBrace (k : Nat) (w : Word) (top : Block) : Prop :=
  0 < k ∨ w.1 = .keyword .elseBranch ∧ top.ifBody = true ∧ (top.elseBody || top.loopBody) = false

theorem isDelimited_of_followsBrace (h : p.Here ps o code n (lines k ++ w :: ws))
    (hprevious : p.previous = .symbol .rightBrace) (hk : FollowsBrace k w o.blocks.top) :
    isDelimited p = true := by
  cases k with
  | zero =>
    obtain ⟨helse, hif, hother⟩ := hk.resolve_left (Nat.lt_irrefl 0)
    have hkind : p.token.kind = .keyword .elseBranch := h.kind_eq.trans helse
    simp only [isDelimited, hkind, hprevious, h.blocks_eq, BlockStack.toList, BlockStack.elseBinds]
    simp [hif, hother]
  | succ k => exact isDelimited_of_newline h.kind_eq

/-- The closing brace of a block, where `R` is what closing the block leads to. -/
theorem endBody_of_closeBodies {R : Pass → Prop} (hdepth : 1 < o.blocks.depth)
    (h : p.Here ps o code n (Symbol.word .rightBrace :: (lines k ++ w :: ws)))
    (hk : FollowsBrace k w o.blocks.top)
    (hR : ∀ q, q.Here ps o code n (lines k ++ w :: ws) → q.previous.blocksStep = false →
      Ensures (closeBodies true) q (fun b r => b = false ∧ R r) OnlyShort) :
    Ensures (endBody true) p (fun _ => R) OnlyShort := by
  have hp : ¬p.blocks.depth ≤ 1 := by
    rw [h.blocks_eq]
    omega
  have hkind : p.token.kind = .symbol .rightBrace := h.kind_eq
  simp only [endBody, closeBehind, closingBrace, ensures_bind, ensures_get, ensures_ite, if_neg hp,
    if_true, ensures_isAt, hkind, BEq.rfl]
  refine advance_here h (by simp) fun q hq hprevious => ?_
  rw [ensures_atDelimiter, isDelimited_of_followsBrace hq hprevious hk, Bool.true_or, if_pos rfl,
    ensures_pure]
  refine (hR q hq (by rw [hprevious]; rfl)).imp ?_
  rintro b r ⟨rfl, hr⟩
  rw [Bool.and_false, if_neg Bool.false_ne_true]
  exact hr

/-- The closing brace of a mere brace ends nothing else. -/
theorem closeBodies_brace (hbase : base.IsBase) (hg : Sequel.Comes ps n w ws (.rest code))
    (h : p.Here ps base.brace code n (lines k ++ w :: ws))
    (hstep : p.previous.blocksStep = false) :
    Ensures (closeBodies true) p
      (fun b q => b = false ∧ q.Met ps base n w ws k 1 (.rest code)) OnlyShort := by
  have htop : p.blocks.top = Block.braceIn base.blocks.top := by
    rw [h.blocks_eq]
    rfl
  have hinner : Ensures (closeInnermost true) p
      (fun _ q => q.Here ps base code n (lines k ++ w :: ws) ∧ q.previous = p.previous)
      OnlyShort := by
    simp only [closeInnermost, ensures_bind, ensures_topBlock, ensures_ite, htop, Block.braceIn,
      Bool.or_self, Bool.false_eq_true, if_false, Bool.not_false, Bool.and_self, if_true]
    exact modifyBlocks_here h BlockStack.pop fun q hq hprevious => ⟨hq, hprevious⟩
  simp only [closeBodies, ensures_bind, ensures_get, htop]
  refine iterate_of_closesOn (Nat.le_refl _) ?_
  change Ensures (closeOne ⟨true, true⟩) p _ _
  rw [closeOne, ensures_ite, if_neg (by simp), ensures_bind, ensures_get, ensures_bind]
  refine hinner.imp fun _ q hq => ?_
  obtain ⟨hq, hprevious⟩ := hq
  refine closeAround_here hbase (.nil code) hg (Nat.zero_le 1) rfl hq (hprevious ▸ hstep) ?_
  rw [h.blocks_eq, hq.blocks_eq]
  exact Nat.lt_succ_self _

end Compile

end DeskCalc
