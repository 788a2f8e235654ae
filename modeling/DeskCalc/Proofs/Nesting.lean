import DeskCalc.Proofs.Stands

/-!
# Nested blocks

The open blocks, the labels at their ends and the labels `continue` jumps to are three stacks that
grow and shrink together. `Outline.Balanced` says how they belong together: a loop has one exit that
`break` jumps to and one label that `continue` jumps to, the body of an `if` or of an `else` has one
exit, and an `if` whose `else` may still follow keeps its exit.

Opening a block (`Balanced.push`), closing one (`Balanced.pop`), and what happens at the end of an
`if` (`Balanced.awaitElse`, `Balanced.endIf`) keep the stacks balanced.
-/

namespace DeskCalc

/-- Set or take off the mark that an `else` may follow. -/
abbrev BlockStack.mark (s : BlockStack) (ended : Bool) : BlockStack :=
  s.modifyTop ({ · with ifEnded := ended })

namespace Block

/-- The labels at the end of a block, the innermost first, and whether `break` jumps to them. -/
def exitKinds (b : Block) : List Bool :=
  (if b.ifEnded then [false] else []) ++ (if b.loopBody then [true] else []) ++
    (if b.ifBody || b.elseBody then [false] else [])

/-- A block that was opened inside `outer`: it is the body of one thing, or a mere brace. -/
structure Inside (b outer : Block) : Prop where
  inFunc : b.inFunc = (b.funcBody || outer.inFunc)
  inLoop : b.inLoop = (b.loopBody || outer.inLoop)
  ofLoop : b.loopBody = true → b.ifBody = false ∧ b.elseBody = false ∧ b.funcBody = false
  ofIf : b.ifBody = true → b.elseBody = false ∧ b.funcBody = false
  ofElse : b.elseBody = true → b.funcBody = false
  braced : b.loopBody = false → b.ifBody = false → b.elseBody = false → b.funcBody = false →
    b.brace = true

variable {b outer : Block}

section

variable (h : b.Inside outer)
include h

theorem Inside.loopBody_eq_false (hb : b.ifBody = true ∨ b.elseBody = true ∨ b.funcBody = true) :
    b.loopBody = false := by
  rw [Bool.eq_false_iff]
  intro hloop
  simp [h.ofLoop hloop] at hb

theorem Inside.ifBody_eq_false (hb : b.elseBody = true ∨ b.funcBody = true) : b.ifBody = false := by
  rw [Bool.eq_false_iff]
  intro hif
  simp [h.ofIf hif] at hb

theorem Inside.elseBody_eq_false (hb : b.funcBody = true) : b.elseBody = false := by
  rw [Bool.eq_false_iff]
  intro helse
  simp [h.ofElse helse] at hb

theorem Inside.exitKinds_of_loopBody (hended : b.ifEnded = false) (hb : b.loopBody = true) :
    b.exitKinds = [true] := by
  obtain ⟨hif, helse, -⟩ := h.ofLoop hb
  simp [exitKinds, hended, hb, hif, helse]

theorem Inside.exitKinds_of_elseBody (hended : b.ifEnded = false) (hb : b.elseBody = true) :
    b.exitKinds = [false] := by
  simp [exitKinds, hended, hb, h.loopBody_eq_false (.inr (.inl hb))]

end

theorem exitKinds_of_not (hended : b.ifEnded = false) (hloop : b.loopBody = false)
    (hif : b.ifBody = false) (helse : b.elseBody = false) : b.exitKinds = [] := by
  simp [exitKinds, hended, hloop, hif, helse]

end Block

/-- The open blocks, the innermost first. The body of a function stands outside all others. -/
inductive Nested : List Block → Prop
  | outermost (ifEnded : Bool) : Nested [{ ifEnded := ifEnded }]
  | inside {b outer : Block} {blocks : List Block} (hb : b.Inside outer)
      (hfunc : b.funcBody = true → blocks = []) (h : Nested (outer :: blocks)) :
      Nested (b :: outer :: blocks)

/-- The exits and the labels of `continue` are those of the open blocks. -/
structure Outline.Balanced (o : Outline) : Prop where
  nested : Nested o.blocks.toList
  exits : o.exits.map (·.isLoop) = o.blocks.toList.flatMap Block.exitKinds
  continues : o.continues.length = o.blocks.toList.countP (·.loopBody)
  ended : ∀ b ∈ o.blocks.below, b.ifEnded = false
  target : o.target ≠ Program.mainId ↔ o.blocks.top.inFunc = true

/-! ## What nesting says -/

namespace Nested

variable {b outer : Block} {blocks : List Block}

/-- A mark that a block takes over from the one around it, besides those it has of its own. -/
theorem inherited_iff {mark own : Block → Bool}
    (houter : ∀ ifEnded, mark { ifEnded := ifEnded } = own { ifEnded := ifEnded })
    (hinside : ∀ b outer : Block, b.Inside outer → mark b = (own b || mark outer))
    (h : Nested (b :: blocks)) : mark b = true ↔ ∃ c ∈ b :: blocks, own c = true := by
  generalize hbs : b :: blocks = bs at h
  induction h generalizing b blocks with
  | outermost ifEnded =>
    cases hbs
    simp [houter]
  | inside hb _ _ ih =>
    cases hbs
    rw [hinside _ _ hb, Bool.or_eq_true, ih rfl]
    simp only [List.mem_cons, exists_eq_or_imp]

/-- A block is inside a loop if it, or a block around it, is the body of one. -/
theorem inLoop_iff (h : Nested (b :: blocks)) :
    b.inLoop = true ↔ ∃ c ∈ b :: blocks, c.loopBody = true :=
  h.inherited_iff (fun _ => rfl) fun _ _ hb => hb.inLoop

/-- A block is inside a function if it, or a block around it, is the body of one. -/
theorem inFunc_iff (h : Nested (b :: blocks)) :
    b.inFunc = true ↔ ∃ c ∈ b :: blocks, c.funcBody = true :=
  h.inherited_iff (fun _ => rfl) fun _ _ hb => hb.inFunc

/-- The body of a function is the first block that was opened. -/
theorem inFunc_iff_second (h : Nested (b :: blocks)) :
    b.inFunc = true ↔ ∃ c, (b :: blocks).reverse[1]? = some c ∧ c.funcBody = true := by
  generalize hbs : b :: blocks = bs at h
  induction h generalizing b blocks with
  | outermost ifEnded =>
    cases hbs
    simp
  | @inside b outer blocks hb hfunc h ih =>
    cases hbs
    rw [hb.inFunc, Bool.or_eq_true, ih rfl]
    cases blocks with
    | nil => simp
    | cons c blocks =>
      have hb' : ¬ b.funcBody = true := fun hf => by cases hfunc hf
      have hlen : 1 < (outer :: c :: blocks).reverse.length := by simp
      rw [List.reverse_cons (a := b), List.getElem?_append_left hlen]
      rw [or_iff_right hb']

/-- The block around the innermost one is nested as well. -/
theorem of_cons (h : Nested (b :: outer :: blocks)) : Nested (outer :: blocks) := by
  cases h with
  | inside _ _ h => exact h

theorem inside_of_cons (h : Nested (b :: outer :: blocks)) : b.Inside outer := by
  cases h with
  | inside hb _ _ => exact hb

theorem outermost_eq (h : Nested [b]) : b = { ifEnded := b.ifEnded } := by
  cases h with
  | outermost ifEnded => rfl

/-- Nesting does not depend on how far a body has come. -/
theorem setTop {c : Block} (h : Nested (b :: blocks))
    (hsame : { c with brace := b.brace, awaited := b.awaited, ifEnded := b.ifEnded } = b)
    (hbrace : b.brace = true → c.brace = true)
    (houter : blocks = [] → c = { ifEnded := c.ifEnded }) : Nested (c :: blocks) := by
  cases blocks with
  | nil =>
    rw [houter rfl]
    exact .outermost _
  | cons outer blocks =>
    cases h with
    | inside hb hfunc h =>
      rw [← hsame] at hb hfunc
      refine .inside ⟨hb.inFunc, hb.inLoop, hb.ofLoop, hb.ofIf, hb.ofElse, ?_⟩ hfunc h
      intro hloop hif helse hfunc
      exact hbrace (hb.braced hloop hif helse hfunc)

/-- Nor does it depend on whether an `else` may follow. -/
theorem mark (h : Nested (b :: blocks)) (ifEnded : Bool) :
    Nested ({ b with ifEnded := ifEnded } :: blocks) := by
  refine h.setTop rfl id fun hnil => ?_
  subst hnil
  rw [h.outermost_eq]

end Nested

theorem countP_loopBody_cons (b : Block) (blocks : List Block) :
    (b :: blocks).countP (·.loopBody) = b.loopBody.toNat + blocks.countP (·.loopBody) := by
  rw [List.countP_cons, Nat.add_comm]
  cases b.loopBody <;> rfl

/-! ## Opening and closing -/

namespace Outline.Balanced

variable {o : Outline} {b outer : Block} {blocks : List Block}

section

variable (h : o.Balanced)
include h

/-- Nothing is left over when nothing is open. -/
theorem of_isIdle (hidle : o.blocks.isIdle = true) :
    o.exits = [] ∧ o.continues = [] ∧ o.target = Program.mainId := by
  simp only [BlockStack.isIdle, BlockStack.isTopLevel, Block.isEmpty, Bool.and_eq_true,
    List.isEmpty_iff, beq_iff_eq] at hidle
  have hexits := h.exits
  have hcontinues := h.continues
  have htarget := h.target
  rw [BlockStack.toList, hidle.1, hidle.2] at hexits hcontinues
  rw [hidle.2] at htarget
  refine ⟨?_, ?_, ?_⟩
  · simpa [Block.exitKinds] using hexits
  · simpa using hcontinues
  · simpa using htarget

/-- Outside all bodies only an `else` can be waited for. -/
theorem top_eq (hnil : o.blocks.below = []) : o.blocks.top = { ifEnded := o.blocks.top.ifEnded } := by
  have hnested := h.nested
  rw [BlockStack.toList, hnil] at hnested
  exact hnested.outermost_eq

/-- The outermost block is no body of an `if`. -/
theorem depth_of_ifBody (hif : o.blocks.top.ifBody = true) : 1 < o.blocks.depth := by
  cases hb : o.blocks.below with
  | nil =>
    rw [h.top_eq hb] at hif
    cases hif
  | cons outer blocks => simp [BlockStack.depth, hb]

/-- The innermost block was opened inside another one. -/
theorem inside (hdepth : 1 < o.blocks.depth) : ∃ outer, o.blocks.top.Inside outer := by
  have hnested := h.nested
  rw [BlockStack.toList] at hnested
  cases hb : o.blocks.below with
  | nil => simp [BlockStack.depth, hb] at hdepth
  | cons outer blocks =>
    rw [hb] at hnested
    exact ⟨outer, hnested.inside_of_cons⟩

/-- **Opening a block** with its exit and the label of its loop. -/
theorem push (hended : o.blocks.top.ifEnded = false) (hb : b.Inside o.blocks.top)
    (hfunc : b.funcBody = false) (exits : List Exit) (continues : List Nat)
    (hexits : exits.map (·.isLoop) = b.exitKinds) (hcontinues : continues.length = b.loopBody.toNat) :
    Balanced { o with
      blocks := o.blocks.push b
      exits := exits ++ o.exits
      continues := continues ++ o.continues } where
  nested := .inside hb (fun hf => by cases hfunc.symm.trans hf) h.nested
  exits := by
    rw [List.map_append, hexits, h.exits]
    rfl
  continues := by
    rw [List.length_append, hcontinues, h.continues, BlockStack.toList_push,
      countP_loopBody_cons]
  ended := by
    intro c hc
    rcases List.mem_cons.1 hc with rfl | hc
    · exact hended
    · exact h.ended c hc
  target := by
    rw [h.target]
    simp [BlockStack.push, hb.inFunc, hfunc]

/-- **Opening the body of a function**, where nothing else is open. -/
theorem pushFunction (hidle : o.blocks.isIdle = true) (hb : b.Inside {}) (hfunc : b.funcBody = true)
    (hended : b.ifEnded = false) {target : Nat} (htarget : target ≠ Program.mainId) :
    Balanced { o with blocks := o.blocks.push b, target := target } := by
  obtain ⟨hexits, hcontinues, -⟩ := h.of_isIdle hidle
  simp only [BlockStack.isIdle, BlockStack.isTopLevel, Block.isEmpty, Bool.and_eq_true,
    List.isEmpty_iff, beq_iff_eq] at hidle
  have hloop := hb.loopBody_eq_false (.inr (.inr hfunc))
  have hif := hb.ifBody_eq_false (.inr hfunc)
  have helse := hb.elseBody_eq_false hfunc
  have hlist : (o.blocks.push b).toList = [b, {}] := by
    rw [BlockStack.toList_push, BlockStack.toList, hidle.1, hidle.2]
  constructor
  · rw [hlist]
    exact .inside hb (fun _ => rfl) (.outermost false)
  · rw [hlist]
    simp [hexits, Block.exitKinds, hended, hloop, hif, helse]
  · rw [hlist]
    simp [hcontinues, hloop]
  · intro c hc
    rw [BlockStack.push, hidle.1, hidle.2] at hc
    cases List.mem_singleton.1 hc
    rfl
  · simp [htarget, BlockStack.push, hb.inFunc, hfunc]

/-- **Closing the innermost block**, which gives up its exits and the label of its loop. Behind the
body of a function code goes to the main program. -/
theorem pop (hdepth : 1 < o.blocks.depth) : Balanced { o with
      blocks := o.blocks.pop
      exits := o.exits.drop o.blocks.top.exitKinds.length
      continues := o.continues.drop o.blocks.top.loopBody.toNat
      target := if o.blocks.top.funcBody then Program.mainId else o.target } := by
  rcases o with ⟨⟨b, _ | ⟨outer, blocks⟩⟩, exits, continues, target, quitting⟩
  · simp [BlockStack.depth] at hdepth
  obtain ⟨hnested, hexits, hcontinues, hended, htarget⟩ := h
  simp only [BlockStack.toList] at hnested hexits hcontinues
  cases hnested with
  | inside hb hfunc hnested =>
    refine ⟨hnested, ?_, ?_, fun c hc => hended c (List.mem_cons_of_mem _ hc), ?_⟩
    · rw [List.map_drop, hexits, List.flatMap_cons, List.drop_left]
      rfl
    · rw [List.length_drop, hcontinues, countP_loopBody_cons, Nat.add_sub_cancel_left]
      rfl
    · simp only [BlockStack.pop]
      cases hf : b.funcBody with
      | false =>
        rw [if_neg Bool.false_ne_true, htarget, hb.inFunc, hf, Bool.false_or]
      | true =>
        cases hfunc hf
        rw [if_pos rfl, hnested.outermost_eq]
        simp

/-- Nothing is open around the body of a function. -/
theorem isIdle_of_funcBody (hdepth : 1 < o.blocks.depth) (hfunc : o.blocks.top.funcBody = true) :
    o.blocks.pop.isIdle = true := by
  rcases o with ⟨⟨b, _ | ⟨outer, blocks⟩⟩, exits, continues, target, quitting⟩
  · simp [BlockStack.depth] at hdepth
  have hnested : Nested (b :: outer :: blocks) := h.nested
  have hended := h.ended outer List.mem_cons_self
  cases hnested with
  | inside hb hnil hnested =>
    cases hnil hfunc
    have houter := hnested.outermost_eq
    rw [hended] at houter
    simp [BlockStack.pop, BlockStack.isIdle, BlockStack.isTopLevel, Block.isEmpty, houter]

/-- The top block changes in how far its body has come. -/
theorem setTop {c : Block}
    (hsame : { c with brace := o.blocks.top.brace, awaited := o.blocks.top.awaited } = o.blocks.top)
    (hbrace : o.blocks.top.brace = true → c.brace = true)
    (houter : o.blocks.below = [] → c = { ifEnded := c.ifEnded }) :
    Balanced { o with blocks := ⟨c, o.blocks.below⟩ } := by
  have hkinds : c.exitKinds = o.blocks.top.exitKinds := by rw [← hsame]; rfl
  have hloop : c.loopBody = o.blocks.top.loopBody := by rw [← hsame]
  have hin : c.inFunc = o.blocks.top.inFunc := by rw [← hsame]
  have hended : c.ifEnded = o.blocks.top.ifEnded := by rw [← hsame]
  refine ⟨h.nested.setTop (hended ▸ hsame) hbrace houter, ?_, ?_, h.ended, ?_⟩
  · rw [h.exits, BlockStack.toList, BlockStack.toList, List.flatMap_cons, List.flatMap_cons, hkinds]
  · rw [h.continues, BlockStack.toList, BlockStack.toList, List.countP_cons, List.countP_cons,
      hloop]
  · rw [h.target, hin]

/-- **The body of an `if` ends** and its exit waits for an `else`. -/
theorem awaitElse (hif : o.blocks.top.ifBody = true) (hended : o.blocks.top.ifEnded = false) :
    Balanced { o with blocks := o.blocks.pop.mark true } := by
  have hdepth := h.depth_of_ifBody hif
  rcases o with ⟨⟨b, _ | ⟨outer, blocks⟩⟩, exits, continues, target, quitting⟩
  · simp [BlockStack.depth] at hdepth
  obtain ⟨hnested, hexits, hcontinues, hmarks, htarget⟩ := h
  simp only [BlockStack.toList] at hnested hexits hcontinues hif hended
  have hb := hnested.inside_of_cons
  have hloop := hb.loopBody_eq_false (.inl hif)
  have houter := hmarks outer List.mem_cons_self
  refine ⟨hnested.of_cons.mark true, ?_, ?_, fun c hc => hmarks c (List.mem_cons_of_mem _ hc), ?_⟩
  · rw [hexits]
    simp [BlockStack.pop, Block.exitKinds, hif, hended, hloop, houter]
  · rw [hcontinues]
    simp [BlockStack.pop, List.countP_cons, hloop]
  · rw [htarget, hb.inFunc, (hb.ofIf hif).2, Bool.false_or]
    rfl

end

/-- **An `if` gets no `else`**: its exit is given up. The hypothesis is about the blocks with the
mark, which may have been taken off before. -/
theorem endIf (h : Balanced { o with blocks := o.blocks.mark true }) :
    Balanced { o with blocks := o.blocks.mark false, exits := o.exits.tail } := by
  have hsum := h.exits
  simp only [BlockStack.toList_modifyTop, List.flatMap_cons, Block.exitKinds, if_true,
    List.cons_append, List.nil_append, List.map_eq_cons_iff] at hsum
  obtain ⟨x, xs, hx, -, hxs⟩ := hsum
  refine ⟨h.nested.mark false, ?_, h.continues, h.ended, h.target⟩
  rw [hx, List.tail_cons, hxs]
  simp [Block.exitKinds]

end Outline.Balanced

end DeskCalc
