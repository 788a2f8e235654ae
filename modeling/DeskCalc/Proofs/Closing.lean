import DeskCalc.Proofs.Brackets.Shut
import DeskCalc.Proofs.Nesting
import DeskCalc.Statement.Body

/-!
# Closing bodies

Between statements a pass is `Poised`. Where a trail is given it is then `Steady`: its program is as
`Writing` has it with an empty stack, and the stacks of open blocks and of labels are balanced.
Everything that closes blocks keeps this, and it reads nothing but line feeds and maybe an `else`
(`Shut`). The end of a body leaves fewer blocks open, or it finds an `else` and opens its body in
place of the one of the `if` (`Closed`); this is what bounds the loops over open blocks, so that none
of them runs out of its bound.
-/

namespace DeskCalc

variable {B : Option Trail} {due : Dues} {p q r s : Pass} {f : Function} {u v : List Token}
  {o : Outline} {t t' : BlockStack}

/-- Between two statements. -/
structure Pass.Steady (B : Trail) (p : Pass) : Prop where
  stands : ∃ f, p.Drafts B f []
  balanced : p.outline.Balanced

/-- Between two statements, where nothing is known of the program unless a trail is given. -/
structure Pass.Poised (B : Option Trail) (p : Pass) : Prop where
  inOrder : p.InOrder
  steady : ∀ b ∈ B, p.Steady b

theorem Pass.Steady.poised {B : Trail} (h : p.Steady B) : p.Poised (some B) := by
  obtain ⟨f, hf⟩ := h.stands
  exact ⟨hf.inOrder, fun b hb => Option.some.inj hb ▸ h⟩

theorem Pass.Poised.midway (h : p.Poised B) : ∃ f, p.Midway B p [] p.outline f [] := by
  obtain ⟨f, hf⟩ := h.inOrder.function
  refine ⟨f, .refl p, h.inOrder, hf, rfl, fun b hb => ?_⟩
  obtain ⟨g, hg⟩ := (h.steady b hb).stands
  cases hf.symm.trans hg.writing.function
  exact hg

theorem Pass.Poised.balanced (h : p.Poised B) : ∀ b ∈ B, p.outline.Balanced :=
  fun b hb => (h.steady b hb).balanced

/-- Since `s` the tokens `u` were read, and the open blocks are `t`. -/
structure Pass.Arrives (B : Option Trail) (p s : Pass) (u : List Token) (t : BlockStack) : Prop
    extends p.Poised B, p.From s u where
  blocks : p.blocks = t
  quitting : p.quitting = s.quitting

theorem Pass.Arrives.refl (h : p.Poised B) : p.Arrives B p [] p.blocks := ⟨h, .refl p, rfl, rfl⟩

theorem Pass.Arrives.trans (h : q.Arrives B p u t) (h' : r.Arrives B q v t') :
    r.Arrives B p (u ++ v) t' :=
  ⟨h'.toPoised, h.toFrom.trans h'.toFrom, h'.blocks, h'.quitting.trans h.quitting⟩

/-- The statement is over. -/
theorem Pass.Midway.arrives (h : p.Midway B s u o f []) (hbal : ∀ b ∈ B, o.Balanced)
    (hquit : o.quitting = s.quitting) : p.Arrives B s u o.blocks := by
  cases h.outline
  exact ⟨⟨h.inOrder, fun b hb => ⟨⟨f, h.drafts b hb⟩, hbal b hb⟩⟩, h.toFrom, rfl, hquit⟩

namespace Block

theorem inside_ifBody (outer : Block) : (bodyIn { ifBody := true } outer).Inside outer := by
  constructor <;> simp [bodyIn]

theorem inside_elseBody (outer : Block) : (bodyIn { elseBody := true } outer).Inside outer := by
  constructor <;> simp [bodyIn]

theorem inside_loopBody (outer : Block) :
    (bodyIn { inLoop := true, loopBody := true } outer).Inside outer := by
  constructor <;> simp [bodyIn]

theorem inside_braceIn (outer : Block) : (braceIn outer).Inside outer := by
  constructor <;> simp [braceIn]

end Block

namespace Compile

variable {Q : Unit → Pass → Prop}

/-- A loop over what is open. Where a trail is given, every repetition makes a number smaller. -/
theorem iterate_holds {α β γ : Type} {step : α → Compile (α ⊕ β)} {Q : β → Pass → Prop}
    (μ : Pass → Nat) (I : α → Pass → Prop)
    (hstep : ∀ a p, I a p → Ensures (step a) p (fun r q =>
      match r with
      | .inl a' => I a' q ∧ ∀ b ∈ B, μ q < μ p
      | .inr b => Q b q) (Declines B))
    (bound : List γ) (a : α) (p : Pass) (hI : I a p) (hb : μ p ≤ bound.length) :
    Ensures (iterate step bound a) p Q (Declines B) := by
  cases B with
  | none =>
    refine (accepts_iterate I (fun a p ha => (hstep a p ha).mono ?_ fun _ _ _ => trivial) bound a p
      hI).mono (fun _ _ => id) fun _ _ _ _ hmem => ?_
    · rintro (a' | b) q hq
      · exact hq.1
      · exact hq
    · cases hmem
  | some b =>
    refine ensures_iterate μ I (fun a p ha => (hstep a p ha).imp ?_) bound a p hI hb
    rintro (a' | b) q hq
    · exact ⟨hq.1, hq.2 _ rfl⟩
    · exact hq

/-! ## The end of an `if` -/

/-- An `if` gets no `else`. -/
theorem endIf_holds (h : p.Midway B s u o f [] due)
    (hQ : ∀ q g, g.labels.size = f.labels.size →
      q.Midway B s u { o with blocks := o.blocks.mark false, exits := o.exits.tail } g [] due →
      Q () q) :
    Ensures endIf p Q (Declines B) := by
  rw [endIf, ensures_bind]
  exact modifyBlocks_holds h fun q hq => resolveExit_holds hq hQ

/-- The mark of an `if` that has just ended is there already. -/
theorem balanced_marked (h : o.Balanced) (hended : o.blocks.top.ifEnded = true) :
    Outline.Balanced { o with blocks := o.blocks.mark true } := by
  have hmark : o.blocks.mark true = o.blocks := by rw [BlockStack.mark, BlockStack.modifyTop, ← hended]
  rw [hmark]
  exact h

/-- **The word `else`** opens a body, or it is refused. -/
theorem elseBranch_holds (h : p.Poised B) (hk : p.token.kind = .keyword .elseBranch)
    (hQ : p.blocks.top.ifEnded = true → ∀ x b q, x.kind = .keyword .elseBranch → Block.Awaits b →
      q.Arrives B p [x] ((p.blocks.mark false).push b) → Q () q) :
    Ensures elseBranch p Q (Declines B) := by
  obtain ⟨f, hf⟩ := h.midway
  simp only [elseBranch, ensures_bind, ensures_topBlock, ensures_ite, ensures_nextLabel hf.function,
    ensures_refuseHere]
  split
  · next hended =>
    -- the jump over the body names the label that is made behind the end of the `if`
    have hnamed := hf.name (m := f.labels.size + 1) (Nat.zero_le _)
    refine emitWith_holds hnamed rfl rfl (names_of_lt hnamed.function (.inl (Nat.lt_succ_self _)))
      fun q₁ g₁ hg₁ h₁ => ?_
    refine endIf_holds h₁ fun q₂ g₂ hg₂ h₂ => ?_
    refine openExit_holds h₂ fun q₃ g₃ hg₃ h₃ => ?_
    have hmade : f.labels.size + 1 ≤ max 0 g₃.labels.size := by omega
    refine modifyBlocks_holds (h₃.name hmade) fun q₄ h₄ => ?_
    rw [← hf.token_eq h₄.toFrom] at hk
    refine advance_holds_kind h₄ hk (by simp) fun x q hx h₅ => ?_
    refine hQ hended x _ q hx (Block.awaits_bodyIn rfl rfl _) (h₅.arrives (fun b hb => ?_) rfl)
    have hbal := (balanced_marked (h.balanced b hb) hended).endIf
    exact hbal.push rfl (Block.inside_elseBody _) rfl [⟨g₂.labels.size, false⟩] [] rfl rfl
  · exact hf.declines _

/-! ## The end of a body -/

/-- A block is closed together with its exit. -/
theorem closeExit_holds (h : p.Midway B s u o f [])
    (hQ : ∀ q g, q.Midway B s u { o with exits := o.exits.tail, blocks := o.blocks.pop } g [] →
      Q () q) :
    Ensures (do resolveExit; closeBlock) p Q (Declines B) := by
  rw [ensures_bind]
  exact resolveExit_holds h fun q₁ g _ h₁ => modifyBlocks_holds h₁ fun q₂ h₂ => hQ q₂ g h₂

/-- The end of the body of a loop jumps back. -/
theorem jumpBack_holds {E : Stop → Pass → Prop} (h : p.Midway B p [] p.outline f []) {label : Nat}
    {labels : List Nat} (hlabels : p.continues = label :: labels)
    (hQ : ∀ q g, q.Midway B p [] { p.outline with continues := labels } g [] → Q () q) :
    Ensures (emitJump label) { p with continues := labels } Q E := by
  have hcut : Pass.InOrder { p with continues := labels } := h.inOrder.congr rfl rfl h.function
  refine ensures_emitWith hcut rfl fun q hq hop _ => ?_
  obtain ⟨g, c, hg, -, hfun⟩ := hq.program.written
  cases h.function.symm.trans hg
  refine hQ q { f with code := c } ⟨{ hq.toFrom with }, hq.inOrder hcut, hq.target ▸ hfun,
    hq.outline_eq, fun b hb => ?_⟩
  have hp := h.drafts b hb
  have hstands : Pass.Stands b.limited { p with continues := labels } f [] :=
    hp.toStands.congr rfl rfl { hp.writing with }
  obtain ⟨c', hc'⟩ := hstands.progress hq hop fun _ => rfl
  cases hc'.writing.function.symm.trans (hq.target ▸ hfun)
  refine ⟨hc', hp.reaches.imp fun d hd => ?_, fun hdue => hq.target ▸ hp.declared hdue⟩
  rw [hq.draft_eq]
  -- the loop gives up the label only behind the jump to it
  refine (hd.write hq.program fun i hi _ l hl => .inr (.inr ?_)).popContinue hfun hlabels
  cases List.mem_singleton.1 hi
  cases List.mem_singleton.1 hl
  simp [Session.draft, hlabels]

/-- The end of the body of a function returns, and the main code goes on. -/
theorem endFunction_holds {E : Stop → Pass → Prop} (h : p.Midway B p [] p.outline f []) {op : Opcode}
    (hop : op = if f.isVoid then .retVoid else .ret0)
    (hdone : ∀ b ∈ B, p.target ≠ Program.mainId ∧ p.exits = [] ∧ p.continues = [])
    (hQ : ∀ q g, q.Midway B p [] { p.outline with
      target := Program.mainId
      blocks := p.blocks.pop } g [] → Q () q) :
    Ensures (do
      emit op
      modify fun p => { p with target := Program.mainId }
      closeBlock) p Q E := by
  have hcount : op.operandCount = 0 := by
    rw [hop]
    split <;> rfl
  have hrun : op.step [] [] = some [] := by
    rw [hop]
    split <;> rfl
  rw [ensures_bind]
  refine ensures_emitWith h.inOrder hcount.symm fun q₁ hq₁ hop₁ _ => ?_
  have ho₁ := hq₁.outline_eq
  rw [ensures_bind, ensures_modify]
  have h₂ : Pass.Midway B { q₁ with target := Program.mainId } p [] { p.outline with
      target := Program.mainId } q₁.program.main [] := by
    refine ⟨{ hq₁.toFrom with }, (hq₁.inOrder h.inOrder).congr rfl rfl rfl, rfl, ?_, fun b hb => ?_⟩
    · rw [← ho₁]
      rfl
    · have hp := h.drafts b hb
      obtain ⟨hmain, hexits, hcontinues⟩ := hdone b hb
      obtain ⟨c, hc⟩ := hp.toStands.progress hq₁ hop₁ fun _ => show execute [_] [] = some [] by
        simp [execute, hrun]
      have hx₁ : q₁.exits = [] := hq₁.exits.trans hexits
      refine ⟨hc.congr rfl rfl (hc.writing.retarget hx₁ rfl), hp.reaches.imp fun d hd => ?_,
        fun _ hne => absurd rfl hne⟩
      have hfinish := hd.finish hp.draft_function (hp.declared rfl hmain) hexits hcontinues
        (hop ▸ hq₁.program)
      have heq : Session.draft { q₁.toSession with target := Program.mainId } =
          { p.draft with program := q₁.program, target := Program.mainId } := by
        simp only [Session.draft, hq₁.exits, hq₁.continues, hq₁.checkpoint]
      exact heq ▸ hfinish
  exact modifyBlocks_holds h₂ fun q hq => hQ q _ hq

/-- **Closing the innermost body**, unless it is the body of an `if`. -/
theorem closeInnermost_holds (h : p.Poised B) (hdepth : 1 < p.blocks.depth)
    (hended : ∀ b ∈ B, p.blocks.top.ifEnded = false)
    (hQ : ∀ t q, q.Arrives B p [] t → t = p.blocks.pop ∨ t = p.blocks ∧
      (p.blocks.top.ifBody = false → p.blocks.top.brace = false ∧ B = none) → Q () q) :
    Ensures (closeInnermost p.blocks.top.brace) p Q (Declines B) := by
  obtain ⟨f, hf⟩ := h.midway
  have hinside (b : Trail) (hb : b ∈ B) : ∃ outer, p.blocks.top.Inside outer :=
    (h.balanced b hb).inside hdepth
  have hpop (b : Trail) (hb : b ∈ B) : Outline.Balanced ⟨p.blocks.pop,
      p.exits.drop p.blocks.top.exitKinds.length, p.continues.drop p.blocks.top.loopBody.toNat,
      if p.blocks.top.funcBody then Program.mainId else p.target, p.quitting⟩ :=
    (h.balanced b hb).pop hdepth
  -- what is open once the block is closed, if it has as many exits as were given up
  have hclosed (q : Pass) (g : Function) (continues : List Nat) (exits : List Exit) (target : Nat)
      (hq : q.Midway B p [] ⟨p.blocks.pop, exits, continues, target, p.quitting⟩ g [])
      (hbal : ∀ b ∈ B, Outline.Balanced ⟨p.blocks.pop, exits, continues, target, p.quitting⟩) :
      Q () q := hQ _ q (hq.arrives hbal rfl) (.inl rfl)
  simp only [closeInnermost, ensures_bind, ensures_topBlock, ensures_ite]
  split
  · split
    · next hloop =>
      have hbal (b : Trail) (hb : b ∈ B) : Outline.Balanced ⟨p.blocks.pop, p.exits.tail,
          p.continues.tail, p.target, p.quitting⟩ := by
        obtain ⟨outer, hin⟩ := hinside b hb
        simpa [hin.exitKinds_of_loopBody (hended b hb) hloop, hloop, (hin.ofLoop hloop).2.2] using
          hpop b hb
      simp only [ensures_get]
      split
      · next hnone =>
        have hsame : p.continues.tail = p.continues := by rw [hnone, List.tail_nil]
        rw [hsame] at hbal
        exact closeExit_holds hf fun q g hq => hclosed q g _ _ _ hq hbal
      · next label labels hlabels =>
        simp only [ensures_bind, ensures_set]
        refine jumpBack_holds hf hlabels fun q₁ g₁ h₁ => ?_
        rw [hlabels, List.tail_cons] at hbal
        exact (ensures_bind _ _).1 (closeExit_holds h₁ fun q g hq => hclosed q g _ _ _ hq hbal)
    · next helse hloop =>
      have helse' : p.blocks.top.elseBody = true := by simpa [hloop] using helse
      refine (ensures_bind _ _).1 (closeExit_holds hf fun q g hq =>
        hclosed q g _ _ _ hq fun b hb => ?_)
      obtain ⟨outer, hin⟩ := hinside b hb
      simpa [hin.exitKinds_of_elseBody (hended b hb) helse', hloop, hin.ofElse helse',
        Pass.outline] using hpop b hb
  next hbody =>
  rw [Bool.or_eq_true, not_or, Bool.not_eq_true, Bool.not_eq_true] at hbody
  obtain ⟨hloop, helse⟩ := hbody
  split
  · next hfunc =>
    rw [ensures_function hf.function]
    have hbal (b : Trail) (hb : b ∈ B) : Outline.Balanced ⟨p.blocks.pop, p.exits,
        p.continues, Program.mainId, p.quitting⟩ := by
      obtain ⟨outer, hin⟩ := hinside b hb
      have hif := hin.ifBody_eq_false (.inr hfunc)
      simpa [Block.exitKinds_of_not (hended b hb) hloop hif helse, hloop, hfunc] using hpop b hb
    have hdone (b : Trail) (hb : b ∈ B) :
        p.target ≠ Program.mainId ∧ p.exits = [] ∧ p.continues = [] := by
      obtain ⟨hexits, hcontinues, -⟩ :=
        (hbal b hb).of_isIdle ((h.balanced b hb).isIdle_of_funcBody hdepth hfunc)
      refine ⟨(h.balanced b hb).target.2 ?_, hexits, hcontinues⟩
      obtain ⟨outer, hin⟩ := hinside b hb
      exact hin.inFunc.trans (by rw [hfunc, Bool.true_or])
    have hend := endFunction_holds (E := Declines B) (Q := Q) hf rfl hdone fun q g hq =>
      hclosed q g _ _ _ hq hbal
    simpa only [ensures_bind] using hend
  next hfunc =>
  split
  · next hbraced =>
    rw [Bool.and_eq_true, Bool.not_eq_true'] at hbraced
    refine modifyBlocks_holds hf fun q hq => hclosed q f _ _ _ hq fun b hb => ?_
    simpa [Block.exitKinds_of_not (hended b hb) hloop hbraced.2 helse, hloop, hfunc,
      Pass.outline] using hpop b hb
  · next hbraced =>
    refine hQ _ p (.refl h) (.inr ⟨rfl, fun hif => ?_⟩)
    have hbrace : p.blocks.top.brace = false := by simpa [hif] using hbraced
    refine ⟨hbrace, Option.eq_none_iff_forall_not_mem.2 fun b hb => ?_⟩
    obtain ⟨outer, hin⟩ := hinside b hb
    cases hbrace.symm.trans (hin.braced hloop hif helse (eq_false_of_ne_true hfunc))

/-- **The end of the body of an `if`**: it has no `else`, or the body of the `else` opens. -/
theorem closeIf_holds {Q : Bool → Pass → Prop} (h : p.Poised B)
    (hif : ∀ b ∈ B, p.blocks.top.ifBody = true ∧ p.blocks.top.ifEnded = false) {closes : Bool}
    (hnone : ∀ v ended q, kindsOf v = [] → (closes = true → ended = false) →
      q.Arrives B p v (p.blocks.pop.mark ended) → Q false q)
    (helse : ∀ v w b q, kindsOf v = [] → kindsOf w = [.keyword .elseBranch] →
      p.strictness ≠ .strict → Block.Awaits b →
      q.Arrives B p (v ++ w) ((p.blocks.pop.mark false).push b) → Q true q) :
    Ensures (closeIf closes) p Q (Declines B) := by
  obtain ⟨f, hf⟩ := h.midway
  have hmarked (b : Trail) (hb : b ∈ B) : Outline.Balanced { p.outline with
      blocks := p.blocks.pop.mark true } :=
    (h.balanced b hb).awaitElse (hif b hb).1 (hif b hb).2
  simp only [closeIf, closeIfHere, lookForElse, ensures_bind]
  refine skipWhile_holds hf rfl fun v q₁ hv _ h₁ => ?_
  rw [List.nil_append] at h₁
  have hblank : kindsOf v = [] := kindsOf_newlines fun x hx => beq_iff_eq.1 (hv x hx)
  refine modifyBlocks_holds h₁ fun q₂ h₂ => ?_
  simp only [ensures_get, ensures_ite, ensures_bind, ensures_pure]
  split
  · refine endIf_holds h₂ fun q g _ hq => ?_
    exact hnone v false q hblank (fun _ => rfl) (hq.arrives (fun b hb => (hmarked b hb).endIf) rfl)
  · next hmode =>
    refine modifyBlocks_holds h₂ fun q₃ h₃ => ?_
    have hr₃ : q₃.Arrives B p v (p.blocks.pop.mark true) := h₃.arrives hmarked rfl
    rw [ensures_isAt]
    split
    · next hat =>
      refine elseBranch_holds hr₃.toPoised (beq_iff_eq.1 hat) fun _ x b q hx hb hq => ?_
      rw [h₂.strictness] at hmode
      rw [hr₃.blocks] at hq
      exact helse v [x] b q hblank (kindsOf_single hx (by simp)) hmode hb (hr₃.trans hq)
    · split
      · refine endIf_holds h₃ fun q g _ hq => ?_
        exact hnone v false q hblank (fun _ => rfl)
          (hq.arrives (fun b hb => Outline.Balanced.endIf (hmarked b hb)) rfl)
      · next hcloses => exact hnone v true q₃ hblank (fun hc => absurd hc hcloses) hr₃

/-! ## The end of several bodies -/

/-- Where the next body is to be closed. -/
structure Closes (B : Option Trail) (c : Closing) (p : Pass) : Prop where
  poised : p.Poised B
  depth : 1 < p.blocks.depth
  braced : c.braced = p.blocks.top.brace
  ended : ∀ b ∈ B, p.blocks.top.ifEnded = false

/-- A body was closed, and then the body of an `if` if that ends with it. A closing brace was at hand
if `had` and is still if `left`, and an `else` was read if `found`. -/
structure Finds (B : Option Trail) (p : Pass) (had left found : Bool) (v : List Token) (q : Pass) :
    Prop where
  arrives : q.Arrives B p v q.blocks
  shut : Shut p.strictness p.blocks had left v q.blocks
  read : found = true ↔ kindsOf v ≠ []
  less : ∀ b ∈ B, q.blocks.depth < p.blocks.depth ∨ kindsOf v ≠ []
  marked : ∀ b ∈ B, found = false → left = true → q.blocks.top.ifEnded = false

/-- The body of an `if` is closed. -/
theorem closeIf_finds {had left : Bool} (hq : q.Arrives B p [] q.blocks)
    (hif : ∀ b ∈ B, q.blocks.top.ifBody = true ∧ q.blocks.top.ifEnded = false)
    (hs : Shut p.strictness p.blocks had left [] q.blocks.pop)
    (hlt : q.blocks.pop.depth < p.blocks.depth) :
    Ensures (closeIf left) q (fun found r => ∃ v, Finds B p had left found v r) (Declines B) := by
  refine closeIf_holds hq.toPoised hif ?_ ?_
  · intro v ended r hv hcloses hr
    have harrives := hq.trans hr
    rw [← hr.blocks] at harrives
    refine ⟨v, harrives, hr.blocks ▸ hs.mark hv ended, by simp [hv], fun _ _ => .inl ?_,
      fun _ _ _ hl => ?_⟩
    · rw [hr.blocks]
      exact hlt
    · rw [hr.blocks, hcloses hl]
      rfl
  · intro v w b r hv hw hmode hb hr
    have harrives := hq.trans hr
    rw [← hr.blocks] at harrives
    have hshut := (hs.mark hv false).push hv hlt hb hw (hq.strictness ▸ hmode)
    exact ⟨v ++ w, harrives, hr.blocks ▸ hshut, by simp [hw], fun _ _ => .inr (by simp [hw]), by simp⟩

/-- Whether a closing brace is at hand after one body was closed. -/
def atHand : Closing ⊕ Bool → Bool
  | .inl c => c.brace
  | .inr left => left

/-- What closing one body comes to. -/
structure ClosesOne (B : Option Trail) (p : Pass) (had : Bool) (r : Closing ⊕ Bool) (v : List Token)
    (q : Pass) : Prop where
  arrives : q.Arrives B p v q.blocks
  shut : Shut p.strictness p.blocks had (atHand r) v q.blocks
  first : atHand r = true → p.blocks.top.brace = false
  less : ∀ b ∈ B, q.blocks.depth < p.blocks.depth ∨ kindsOf v ≠ []
  more : ∀ c, r = .inl c → Closes B c q ∧ kindsOf v = []
  last : ∀ left, r = .inr left →
    q.blocks.Anchored ∧ (left = true → q.blocks.depth ≤ 1 ∨ kindsOf v ≠ [])

/-- The end of `closeOne`: whether the next body ends as well. -/
theorem Finds.closesOne {had left found : Bool} (h : Finds B p had left found v q)
    (hfirst : left = true → p.blocks.top.brace = false) :
    ClosesOne B p had (if q.blocks.depth > 1 && !found && (!q.blocks.top.ifEnded || left) &&
      (!q.blocks.top.brace || left) then .inl ⟨left, q.blocks.top.brace⟩ else .inr left) v q := by
  obtain ⟨hq, hs, hfound, hless, hmark⟩ := h
  split
  · next hgo =>
    simp only [Bool.and_eq_true, Bool.or_eq_true, decide_eq_true_eq, Bool.not_eq_true'] at hgo
    obtain ⟨⟨⟨hdepth, hnone⟩, hend⟩, -⟩ := hgo
    refine ⟨hq, hs, hfirst, hless, fun c hc => ?_, by simp⟩
    cases hc
    refine ⟨⟨hq.toPoised, hdepth, rfl, fun b hb => hend.elim id (hmark b hb hnone)⟩, ?_⟩
    by_contra hv
    cases hnone.symm.trans (hfound.2 hv)
  · next hstop =>
    refine ⟨hq, hs, hfirst, hless, by simp, fun l hl => ?_⟩
    cases hl
    refine ⟨fun hdepth => ?_, fun hleft => ?_⟩
    · cases hf : found with
      | true =>
        rcases hs.found with ⟨hv, -⟩ | ⟨-, -, hawaits, -⟩
        · exact absurd hv (hfound.1 hf)
        · exact .inr (.inl hawaits.awaited)
      | false =>
        by_cases hended : q.blocks.top.ifEnded = true
        · exact .inr (.inr hended)
        · refine .inl ?_
          by_contra hb
          exact hstop (by simp [hdepth, hf, hended, hb])
    · by_contra hno
      rw [not_or, not_le, not_not] at hno
      have hf : found = false := by simpa [hno.2] using hfound
      exact hstop (by simp [hno.1, hf, hleft])

/-- **Closing one body.** -/
theorem closeOne_holds {c : Closing} (h : Closes B c p) :
    Ensures (closeOne c) p (fun r q => ∃ v, ClosesOne B p c.brace r v q) (Declines B) := by
  obtain ⟨hpoised, hdepth, hbraced, hended⟩ := h
  obtain ⟨f, hf⟩ := hpoised.midway
  simp only [closeOne, ensures_ite]
  split
  · exact unexpected_holds hf
  next hbrace =>
  have hhad : p.blocks.top.brace = true → c.brace = true := by
    intro hb
    rw [hbraced, hb] at hbrace
    simpa using hbrace
  simp only [ensures_bind, ensures_get, hbraced]
  refine closeInnermost_holds hpoised hdepth hended fun t q hq ht => ?_
  have hmarks : ∀ b ∈ B, q.blocks.top.ifEnded = false := by
    intro b hb
    rw [hq.blocks]
    rcases ht with rfl | ⟨rfl, -⟩
    · exact (hpoised.balanced b hb).ended _ (BlockStack.top_pop_mem hdepth)
    · exact hended b hb
  have hfinds : Ensures
      (if q.blocks.top.ifBody && (p.blocks.depth == q.blocks.depth || !q.blocks.top.brace) then
        closeIf (c.brace && !p.blocks.top.brace) else pure false) q
      (fun found r => ∃ v, Finds B p c.brace (c.brace && !p.blocks.top.brace) found v r)
      (Declines B) := by
    have harrives : q.Arrives B p [] q.blocks := { hq with blocks := rfl }
    have hpop : Shut p.strictness p.blocks c.brace (c.brace && !p.blocks.top.brace) []
        p.blocks.pop := .pop hdepth hhad
    have hlt := BlockStack.depth_pop_lt hdepth
    rw [ensures_ite, ensures_pure]
    rcases ht with ht | ⟨ht, hkept⟩
    · have hqb : q.blocks = p.blocks.pop := hq.blocks.trans ht
      split
      · next hcond =>
        have hne : (p.blocks.depth == q.blocks.depth) = false := by
          rw [hqb, beq_eq_false_iff_ne]
          omega
        simp only [hne, Bool.false_or, Bool.and_eq_true, Bool.not_eq_true'] at hcond
        refine closeIf_finds harrives (fun b hb => ⟨hcond.1, hmarks b hb⟩) ?_ ?_
        · rw [hqb] at hcond ⊢
          exact hpop.trans rfl (.pop_of_not hcond.2)
        · have := q.blocks.depth_pop_le
          rw [hqb] at this ⊢
          omega
      · exact ⟨[], harrives, hqb ▸ hpop, by simp, fun _ _ => .inl (hqb ▸ hlt),
          fun b hb _ _ => hmarks b hb⟩
    · have hqb : q.blocks = p.blocks := hq.blocks.trans ht
      split
      · next hcond =>
        refine closeIf_finds harrives (fun b hb => ⟨?_, hmarks b hb⟩) (hqb ▸ hpop) (hqb ▸ hlt)
        exact (Bool.and_eq_true_iff.1 hcond).1
      · next hcond =>
        have hif : p.blocks.top.ifBody = false := by simpa [hqb] using hcond
        obtain ⟨hb, rfl⟩ := hkept hif
        refine ⟨[], harrives, ?_, by simp, by simp, by simp⟩
        rw [hqb, hb]
        simpa using Shut.refl
  have hlast (found : Bool) (r : Pass)
      (hr : ∃ v, Finds B p c.brace (c.brace && !p.blocks.top.brace) found v r) :
      Ensures (closeNext (c.brace && !p.blocks.top.brace) found) r
        (fun a q => ∃ v, ClosesOne B p c.brace a v q) (Declines B) := by
    obtain ⟨v, hv⟩ := hr
    have hone := hv.closesOne (by simp)
    simp only [closeNext, ensures_bind, ensures_get, ensures_ite, ensures_pure]
    split
    · next hgo => exact ⟨v, by rwa [if_pos hgo] at hone⟩
    · next hstop => exact ⟨v, by rwa [if_neg hstop] at hone⟩
  simp only [closeAround, ensures_bind, ensures_get, hbraced]
  rw [ensures_ite] at hfinds ⊢
  split
  · next hcond =>
    rw [if_pos hcond] at hfinds
    exact (ensures_bind _ _).2 (hfinds.imp hlast)
  · next hcond =>
    rw [if_neg hcond] at hfinds
    exact hlast false q hfinds

/-- **Closing the innermost body and all that end with it.** -/
theorem closeBodies_holds {Q : Bool → Pass → Prop} (h : p.Poised B) (hdepth : 1 < p.blocks.depth)
    (hended : ∀ b ∈ B, p.blocks.top.ifEnded = false) {brace : Bool}
    (hQ : ∀ left v q, q.Arrives B p v q.blocks → Shut p.strictness p.blocks brace left v q.blocks →
      q.blocks.Anchored →
      (left = true → (q.blocks.depth ≤ 1 ∨ kindsOf v ≠ []) ∧ p.blocks.top.brace = false) →
      (∀ b ∈ B, q.blocks.depth < p.blocks.depth ∨ kindsOf v ≠ []) → Q left q) :
    Ensures (closeBodies brace) p Q (Declines B) := by
  simp only [closeBodies, ensures_bind, ensures_get]
  -- as long as the innermost block has not been looked at, it is the first one
  refine iterate_holds (fun q => q.blocks.depth) (fun c q => Closes B c q ∧ ∃ v, kindsOf v = [] ∧
    q.Arrives B p v q.blocks ∧ Shut p.strictness p.blocks brace c.brace v q.blocks ∧
    (c.brace = true → p.blocks.top.brace = true → q.blocks = p.blocks)) ?_ _ _ p
    ⟨⟨h, hdepth, rfl, hended⟩, [], rfl, .refl h, .refl, fun _ _ => rfl⟩
    (Nat.le_of_eq (BlockStack.length_toList _).symm)
  rintro c q ⟨hc, v, hv, hq, hs, hfirst⟩
  refine (closeOne_holds hc).imp ?_
  rintro a r ⟨w, hone⟩
  have hspent (ha : atHand a = true) : p.blocks.top.brace = false := by
    by_contra hb
    have heq := hfirst (hone.shut.spent ha) (by simpa using hb)
    have hnot := hone.first ha
    rw [heq] at hnot
    exact hb hnot
  have harrives := hq.trans hone.arrives
  have hshut := hs.trans hv (hq.strictness ▸ hone.shut)
  have hle := hs.depth
  cases a with
  | inl c' =>
    obtain ⟨hnext, hw⟩ := hone.more c' rfl
    refine ⟨⟨hnext, v ++ w, by simp [hv, hw], harrives, hshut, fun ha hb => ?_⟩, fun b hb => ?_⟩
    · cases (hspent ha).symm.trans hb
    · exact (hone.less b hb).resolve_right (fun hne => hne hw)
  | inr left =>
    obtain ⟨hanchored, hleft⟩ := hone.last left rfl
    have hread : kindsOf (v ++ w) = kindsOf w := by rw [kindsOf_append, hv, List.nil_append]
    refine hQ left (v ++ w) r harrives hshut hanchored ?_ ?_ <;> rw [hread]
    · exact fun hl => ⟨hleft hl, hspent hl⟩
    · intro b hb
      rcases hone.less b hb with hlt | hne
      · exact .inl (by omega)
      · exact .inr hne

theorem closingBrace_holds (h : p.Midway B p [] p.outline f [])
    (hk : p.token.kind = .symbol .rightBrace)
    (hQ : ∀ x q, x.kind = .symbol .rightBrace → q.Midway B p [x] p.outline f [] → Q () q) :
    Ensures closingBrace p Q (Declines B) := by
  simp only [closingBrace, ensures_bind, ensures_isAt, hk, beq_self_eq_true, if_true]
  refine advance_holds_kind h hk (by simp) fun x q hx hq => ?_
  simp only [ensures_get, ensures_atDelimiter, ensures_ite, ensures_pure]
  split
  · exact hQ x q hx hq
  · exact unexpected_holds hq

/-- Bodies were closed, and perhaps the body of an `else` was opened last. A brace is left over only
where the innermost block has none, and only before an `else`. -/
structure Closed (B : Option Trail) (mode : Strictness) (s : BlockStack) (brace : Bool)
    (v : List Token) (t : BlockStack) : Prop where
  shut : ∃ left, Shut mode s brace left v t ∧
    (left = true → kindsOf v = [.keyword .elseBranch] ∧ s.top.brace = false)
  depth : 1 < s.depth
  anchored : t.Anchored
  less : ∀ b ∈ B, t.depth < s.depth ∨ kindsOf v ≠ []

/-- **The end of a body**, at its closing brace or without one. -/
theorem endBody_holds (h : p.Poised B) (hended : ∀ b ∈ B, p.blocks.top.ifEnded = false)
    {brace : Bool} (hbrace : brace = true → p.token.kind = .symbol .rightBrace)
    (hQ : ∀ w v q, w.map (·.kind) = (if brace then [.symbol .rightBrace] else []) →
      q.Arrives B p (w ++ v) q.blocks → Closed B p.strictness p.blocks brace v q.blocks → Q () q) :
    Ensures (endBody brace) p Q (Declines B) := by
  obtain ⟨f, hf⟩ := h.midway
  -- the bodies are closed behind the brace, if there is one
  have hclose (w : List Token) (q : Pass)
      (hw : w.map (·.kind) = if brace then [.symbol .rightBrace] else [])
      (hq : q.Arrives B p w p.blocks) (hdepth : ¬ p.blocks.depth ≤ 1) :
      Ensures (do
        let unused ← closeBodies brace
        if (← get).blocks.isTopLevel && unused then unexpected else pure ()) q Q (Declines B) := by
    rw [← hq.blocks] at hended
    rw [ensures_bind]
    refine closeBodies_holds hq.toPoised (by rw [hq.blocks]; omega) hended
      fun left v r hr hs hanchored hleft hless => ?_
    rw [hq.blocks] at hs hleft hless
    rw [hq.strictness] at hs
    simp only [ensures_bind, ensures_get, ensures_ite, ensures_pure]
    split
    · obtain ⟨g, hg⟩ := hr.midway
      exact unexpected_holds hg
    · next hused =>
      refine hQ w v r hw (hq.trans hr) ⟨⟨left, hs, fun hl => ?_⟩, by omega, hanchored, hless⟩
      rw [hl, Bool.and_true] at hused
      obtain ⟨htop | hv, hb⟩ := hleft hl
      · exact absurd (BlockStack.isTopLevel_of_depth htop) hused
      · exact ⟨hs.eq_or_eq.resolve_left hv, hb⟩
  simp only [endBody]
  rw [ensures_bind, ensures_get, ensures_ite]
  split
  · exact unexpected_holds hf
  · next hdepth =>
    cases brace with
    | false =>
      simp only [Bool.false_eq_true, if_false]
      exact hclose [] p rfl (.refl h) hdepth
    | true =>
      rw [if_pos rfl, ensures_bind]
      refine closingBrace_holds hf (hbrace rfl) fun x q hx hq => ?_
      exact hclose [x] q (by simp [hx]) (hq.arrives h.balanced rfl) hdepth

/-! ## The end of the input -/

/-- How often the loop over everything open can go on. -/
def openCount (p : Pass) : Nat :=
  if p.blocks.depth = 1 then p.blocks.top.ifEnded.toNat else p.blocks.depth

theorem openCount_le (p : Pass) : openCount p ≤ p.blocks.depth := by
  have hpos : 1 ≤ p.blocks.depth := Nat.le_add_left 1 _
  rw [openCount]
  split
  · exact Nat.le_trans (Bool.toNat_le _) hpos
  · exact Nat.le_refl _

theorem openCount_lt (hlt : q.blocks.depth < p.blocks.depth) : openCount q < openCount p := by
  have hpos : 1 ≤ q.blocks.depth := Nat.le_add_left 1 _
  have hmark := Bool.toNat_le q.blocks.top.ifEnded
  rw [openCount, openCount, if_neg (show p.blocks.depth ≠ 1 by omega)]
  split <;> omega

/-- **Closing everything**, which reads line feeds and `else` alone. -/
theorem closeAll_holds {Q : Bool → Pass → Prop} (h : p.Poised B)
    (hQ : ∀ all v q, q.Arrives B p v q.blocks →
      (∀ x ∈ v, x.kind = .newline ∨ x.kind = .keyword .elseBranch) →
      (all = true → q.blocks = {} ∧ p.blocks.hasBrace = false) → Q all q) :
    Ensures closeAll p Q (Declines B) := by
  simp only [closeAll, ensures_bind, ensures_get, ensures_ite, ensures_pure]
  split
  · next hidle =>
    have hnone := BlockStack.eq_of_isIdle hidle
    refine hQ true [] p (.refl h) (by simp) fun _ => ⟨hnone, ?_⟩
    rw [hnone]
    rfl
  split
  · exact hQ false [] p (.refl h) (by simp) (by simp)
  next hbrace =>
  refine iterate_holds openCount (fun _ q => ∃ v, q.Arrives B p v q.blocks ∧
    ∀ x ∈ v, x.kind = .newline ∨ x.kind = .keyword .elseBranch) ?_ _ _ p
    ⟨[], .refl h, by simp⟩ (openCount_le p)
  rintro - q ⟨v, hq, hv⟩
  obtain ⟨f, hf⟩ := hq.midway
  simp only [closeAllStep, closeAllBody, ensures_bind, ensures_get, ensures_ite, ensures_pure]
  split
  · next hopen =>
    have hbody (r : Pass) (hr : r.Arrives B p v r.blocks)
        (hmark : ∀ b ∈ B, r.blocks.top.ifEnded = false) :
        Ensures (endBody false) r (fun _ t =>
          if t.blocks.depth ≥ q.blocks.depth then Q false t
          else (∃ v, t.Arrives B p v t.blocks ∧
            ∀ x ∈ v, x.kind = .newline ∨ x.kind = .keyword .elseBranch) ∧
            ∀ b ∈ B, openCount t < openCount q) (Declines B) := by
      refine endBody_holds hr.toPoised hmark (by simp) fun w v' t hw ht hclosed => ?_
      obtain rfl : w = [] := List.map_eq_nil_iff.1 hw
      obtain ⟨left, hs, -⟩ := hclosed.shut
      have hread : ∀ x ∈ v ++ ([] ++ v'), x.kind = .newline ∨ x.kind = .keyword .elseBranch := by
        intro x hx
        exact (List.mem_append.1 hx).elim (hv x) (hs.kind_of_mem x)
      split
      · exact hQ false _ t (hr.trans ht) hread (by simp)
      · exact ⟨⟨_, hr.trans ht, hread⟩, fun _ _ => openCount_lt (by omega)⟩
    split
    · next hmark =>
      refine endIf_holds hf fun r g _ hr => ?_
      have hbal (b : Trail) (hb : b ∈ B) := (balanced_marked (hq.balanced b hb) hmark).endIf
      have harrives := hr.arrives hbal rfl
      have hb : r.blocks = q.blocks.mark false := harrives.blocks
      have hr' : r.Arrives B p v r.blocks := by
        have := hq.trans harrives
        rwa [List.append_nil, ← harrives.blocks] at this
      have hend : ∀ b ∈ B, r.blocks.top.ifEnded = false := fun _ _ => by
        rw [hb]
        rfl
      split
      · exact hbody r hr' hend
      · next hdepth =>
        have hpos : 1 ≤ q.blocks.depth := Nat.le_add_left 1 _
        have hone : q.blocks.depth = 1 := by omega
        refine ⟨⟨v, hr', hv⟩, fun _ _ => ?_⟩
        rw [openCount, openCount, hb, BlockStack.depth_modifyTop, if_pos hone, if_pos hone, hmark]
        exact Nat.zero_lt_one
    · next hmark =>
      have hdepth : q.blocks.depth > 1 := by simpa [hmark] using hopen
      rw [if_pos hdepth]
      exact hbody q hq fun _ _ => by simpa using hmark
  · exact hQ _ v q hq hv fun hidle => ⟨BlockStack.eq_of_isIdle hidle, by simpa using hbrace⟩

end Compile

end DeskCalc
