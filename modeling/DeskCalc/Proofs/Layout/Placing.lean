import DeskCalc.Proofs.Expression.Complete
import DeskCalc.Proofs.Layout
import DeskCalc.Proofs.Stands

/-!
# Laying out code

The positions of all labels of a function are known before its code is written, since the sizes of
the statements are. `f.Laid P ps code n` says that `code` has been written so far and `n` labels
have been made, where `ps` are the positions of the labels: a jump names a label, and a label that
has an offset has that of its position.

`p.Here ps o code n ws` says so of the function that receives code in the pass `p`, whose outline is
`o` and which has the words `ws` ahead. The steps of the compiler are stated with it; none of them
can fail except for a full table.
-/

namespace DeskCalc

namespace Code

theorem offsetOf_append {is : List Command} {n : Nat} (h : n ≤ is.length) (js : List Command) :
    offsetOf (is ++ js) n = offsetOf is n := by
  rw [offsetOf, List.take_append_of_le_length h, offsetOf]

theorem Holds.offsetOf_length {c : Code} {is : List Command} (h : c.Holds is) :
    offsetOf is is.length = c.size := by
  rw [offsetOf, List.take_length, h.size_eq]

end Code

namespace Function

/-- The code of the function is `code`, where `ps` are the positions of the labels, and `n` labels
have been made. -/
structure Laid (P : Program) (ps : List Nat) (f : Function) (code : List Placed) (n : Nat) :
    Prop where
  code : ∃ is, f.code.Holds is ∧ List.Forall₂ (P.Places fun l t => ps[l]? = some t) code is ∧
    ∀ l offset, f.labels.get? l = some (.known offset) →
      ∃ t, t ≤ is.length ∧ ps[l]? = some t ∧ offset = Code.offsetOf is t
  labels : f.labels.size = n
  isVoid : f.isVoid = false

variable {P Q : Program} {f : Function} {code : List Placed} {ps : List Nat} {n : Nat}

/-- **Code is written.** -/
theorem Laid.write (h : f.Laid P ps code n) (hPQ : P.Grows Q) {is : List Command} {c : Code}
    (hc : f.code.Writes is c) {more : List Placed}
    (hmore : List.Forall₂ (Q.Places fun l t => ps[l]? = some t) more is) :
    Laid Q ps { f with code := c } (code ++ more) n where
  code := by
    obtain ⟨js, hjs, hcode, hknown⟩ := h.code
    refine ⟨js ++ is, hjs.writes hc, ?_, fun l offset hl => ?_⟩
    · exact List.rel_append (hcode.imp fun _ _ => Program.Places.mono hPQ fun _ _ => id) hmore
    · obtain ⟨t, hle, ht, hoffset⟩ := hknown l offset hl
      refine ⟨t, ?_, ht, ?_⟩
      · rw [List.length_append]
        omega
      · rw [Code.offsetOf_append hle]
        exact hoffset
  labels := h.labels
  isVoid := h.isVoid

/-- A label whose position has been reached may lie at the end of the code. -/
theorem exists_position_of_end {l : Nat} (hl : ps[l]? = some code.length) {is : List Command}
    (his : f.code.Holds is)
    (hcode : List.Forall₂ (P.Places fun l t => ps[l]? = some t) code is) :
    ∃ t, t ≤ is.length ∧ ps[l]? = some t ∧ f.code.size = Code.offsetOf is t := by
  have hlen := hcode.length_eq
  exact ⟨code.length, Nat.le_of_eq hlen, hl, by rw [hlen, his.offsetOf_length]⟩

/-- **A label is made**, here or at a position that is still to come. -/
theorem Laid.push (h : f.Laid P ps code n) (hPQ : P.Grows Q) {label : Label}
    (hlabel : ∀ offset, label = .known offset →
      ps[n]? = some code.length ∧ offset = f.code.size) :
    Laid Q ps { f with labels := f.labels.push label } code (n + 1) where
  code := by
    obtain ⟨is, his, hcode, hknown⟩ := h.code
    refine ⟨is, his, hcode.imp fun _ _ => Program.Places.mono hPQ fun _ _ => id, ?_⟩
    intro l offset hl
    rw [LabelTable.get?_push] at hl
    split at hl
    · next heq =>
      obtain ⟨hn, rfl⟩ := hlabel offset (Option.some.inj hl)
      rw [heq, h.labels]
      exact exists_position_of_end hn his hcode
    · exact hknown l offset hl
  labels := by simp [h.labels]
  isVoid := h.isVoid

/-- **A label is resolved** where its position has been reached. -/
theorem Laid.resolve (h : f.Laid P ps code n) (hPQ : P.Grows Q) {l : Nat}
    (hl : ps[l]? = some code.length) {labels : LabelTable}
    (hlabels : f.labels.resolve l f.code.size = .ok labels) :
    Laid Q ps { f with labels := labels } code n where
  code := by
    obtain ⟨is, his, hcode, hknown⟩ := h.code
    refine ⟨is, his, hcode.imp fun _ _ => Program.Places.mono hPQ fun _ _ => id, ?_⟩
    intro l' offset hl'
    rw [LabelTable.get?_of_resolve hlabels] at hl'
    split at hl'
    · next heq =>
      cases hl'
      rw [heq]
      exact exists_position_of_end hl his hcode
    · exact hknown l' offset hl'
  labels := by
    rw [← h.labels]
    have hsize : labels.labels.size = f.labels.labels.size := by
      unfold LabelTable.resolve at hlabels
      split at hlabels <;> cases hlabels
      exact Array.size_setIfInBounds
    exact hsize
  isVoid := h.isVoid

end Function

/-- Before the end of a text without errors there is a next word. -/
theorem isClear_of_clean {p : Pass} {w : Word} {ws : List Word} (hp : p.InOrder)
    (hw : p.words = w :: ws) (hclean : ∀ v ∈ w :: ws, v.1 ≠ .error) (heof : w.1 ≠ .eof) :
    isClear ws = true := by
  cases ws with
  | nil =>
    obtain ⟨t, ht, heq⟩ := hp.ended
    have hlast : p.words.getLast? = some t.word := by
      rw [Pass.words, List.getLast?_map, ht]
      rfl
    rw [hw] at hlast
    cases hlast
    simp [heq] at heof
  | cons w' ws =>
    have hne := hclean w' (by simp)
    simpa [isClear] using hne

/-- The pass is in the middle of a text. -/
structure Pass.Here (p : Pass) (ps : List Nat) (o : Outline) (code : List Placed) (n : Nat)
    (ws : List Word) : Prop where
  function : ∃ f, p.Stands False f [] ∧ f.Laid p.program ps code n
  lenient : p.strictness = .lenient
  outline : p.outline = o
  words : p.words = ws
  clean : ∀ w ∈ ws, w.1 ≠ .error
  awake : o.quitting = false

namespace Pass.Here

variable {p q : Pass} {o : Outline} {code : List Placed} {ps : List Nat} {n : Nat} {w : Word}
  {ws ws' : List Word}

theorem inOrder (h : p.Here ps o code n ws) : p.InOrder := by
  obtain ⟨f, hf, -⟩ := h.function
  exact hf.inOrder

theorem kind_eq (h : p.Here ps o code n (w :: ws)) : p.token.kind = w.1 := kind_of_words h.words

section

variable (h : p.Here ps o code n ws)
include h

theorem blocks_eq : p.blocks = o.blocks :=
  congrArg Outline.blocks h.outline

theorem exits_eq : p.exits = o.exits :=
  congrArg Outline.exits h.outline

theorem continues_eq : p.continues = o.continues :=
  congrArg Outline.continues h.outline

theorem quitting_eq : p.quitting = false :=
  (congrArg Outline.quitting h.outline).trans h.awake

theorem target_eq : p.target = o.target :=
  congrArg Outline.target h.outline

/-- The function that receives code. -/
theorem stands_of_function? {f : Function} (hf : p.program.function? o.target = some f) :
    p.Stands False f [] ∧ f.Laid p.program ps code n := by
  obtain ⟨g, hg, hlaid⟩ := h.function
  have hfunction := hg.writing.function
  rw [h.target_eq, hf] at hfunction
  cases hfunction
  exact ⟨hg, hlaid⟩

/-- With fewer words ahead there are fewer tokens. -/
theorem length_lt {o' : Outline} {code' : List Placed} {n' : Nat} (hq : q.Here ps o' code' n' ws')
    (hlt : ws'.length < ws.length) : q.upcoming.length < p.upcoming.length := by
  have hlong := p.length_words
  have hshort := q.length_words
  rw [h.words] at hlong
  rw [hq.words] at hshort
  omega

end

/-- Before the end of the text there is a next word. -/
theorem isClear_tail (h : p.Here ps o code n (w :: ws)) (heof : w.1 ≠ .eof) :
    isClear ws = true :=
  isClear_of_clean h.inOrder h.words h.clean heof

section

variable (h : p.Here ps o code n ws)
include h

/-- Tokens were read and code was written. -/
theorem progress {u : List Token} {is : List Command} (hq : p.Progress u is q)
    (ho : q.operators = p.operators) (hw : q.words = ws') {more : List Placed}
    (hmore : List.Forall₂ (q.program.Places fun l t => ps[l]? = some t) more is) :
    q.Here ps o (code ++ more) n ws' where
  function := by
    obtain ⟨f, hf, hlaid⟩ := h.function
    obtain ⟨c, hc⟩ : ∃ c, q.Stands False { f with code := c } [] :=
      hf.progress hq ho False.elim
    obtain ⟨g, d, hg, hd, hgd⟩ := hq.program.written
    cases hf.writing.function.symm.trans hg
    have hsame : some { f with code := c } = some { f with code := d } := by
      rw [← hgd, ← hq.target]
      exact hc.writing.function.symm
    rw [Option.some.inj hsame] at hc
    exact ⟨_, hc, hlaid.write hq.program.grows hd hmore⟩
  lenient := hq.strictness.trans h.lenient
  outline := hq.outline_eq.trans h.outline
  words := hw
  clean w hmem := by
    refine h.clean w ?_
    rw [← h.words, Pass.words, hq.rest, List.map_append]
    subst hw
    exact List.mem_append_right _ hmem
  awake := h.awake

/-- Words were read and compiled. -/
theorem compiles {u : List Token} {more : List Symbolic} (hq : p.Compiles u more q)
    (hw : q.words = ws') : q.Here ps o (code ++ placed more) n ws' := by
  obtain ⟨⟨is, his, hdenotes⟩, ho⟩ := hq
  refine h.progress his ho hw ?_
  rw [placed, List.forall₂_map_left_iff]
  exact hdenotes

/-- Only what is open changes, or nothing that matters here. -/
theorem congr {o' : Outline} (hrest : q.rest = p.rest)
    (hstands : ∀ f, p.Stands False f [] → q.Stands False f []) (hprogram : q.program = p.program)
    (hstrictness : q.strictness = p.strictness) (houtline : q.outline = o')
    (hawake : o'.quitting = false) : q.Here ps o' code n ws where
  function := by
    obtain ⟨f, hf, hlaid⟩ := h.function
    exact ⟨f, hstands f hf, hprogram ▸ hlaid⟩
  lenient := hstrictness.trans h.lenient
  outline := houtline
  words := (Pass.words_eq_of_rest_eq hrest).trans h.words
  clean := h.clean
  awake := hawake

/-- The labels of `continue` change. -/
theorem continues (labels : List Nat) :
    Here { p with continues := labels } ps { o with continues := labels } code n ws := by
  refine h.congr rfl (fun f hf => hf.congr rfl rfl { hf.writing with }) rfl rfl ?_
    h.awake
  rw [← h.outline]
  rfl

/-- The open blocks change. -/
theorem blocks (blocks : BlockStack) :
    Here { p with blocks := blocks } ps { o with blocks := blocks } code n ws := by
  refine h.congr rfl (fun f hf => hf.congr rfl rfl { hf.writing with }) rfl rfl ?_
    h.awake
  rw [← h.outline]
  rfl

end

end Pass.Here

namespace Compile

variable {p : Pass} {o : Outline} {code : List Placed} {ps : List Nat} {n : Nat} {w : Word}
  {ws : List Word} {E : Stop → Pass → Prop} {Q : Unit → Pass → Prop} {skipped : Token.Kind → Bool}

/-! ## Tokens -/

theorem advance_here (h : p.Here ps o code n (w :: ws)) (heof : w.1 ≠ .eof)
    (hQ : ∀ q, q.Here ps o code n ws → q.previous = w.1 → Q () q) : Ensures advance p Q OnlyShort := by
  have hkind := h.kind_eq
  refine advance_complete (.start h.inOrder h.words) heof (h.isClear_tail heof)
    fun q hq _ => hQ q ?_ ?_
  · simpa [placed] using h.compiles hq.compiles hq.words
  · exact (Pass.Compiles.previous_eq (u := []) hq.compiles).trans hkind

theorem expect_here {s : Symbol} (h : p.Here ps o code n (s.word :: ws))
    (hQ : ∀ q, q.Here ps o code n ws → q.previous = .symbol s → Q () q) :
    Ensures (expect (.symbol s)) p Q OnlyShort := by
  have hkind : p.token.kind = .symbol s := h.kind_eq
  rw [ensures_expect, if_pos hkind]
  exact advance_here h (by simp) hQ

/-- Moving past line feeds, where `I` keeps the words ahead. -/
theorem skipWhile_lines {I : List Word → Pass → Prop} (hI : ∀ ws p, I ws p → p.words = ws)
    (hadvance : ∀ ws p, I ((.newline, "") :: ws) p →
      Ensures advance p (fun _ q => I ws q) OnlyShort) {k : Nat} (h : I (lines k ++ w :: ws) p)
    (hlines : skipped .newline = true) (hw : skipped w.1 = false) :
    Ensures (skipWhile skipped) p (fun _ q => I (w :: ws) q) OnlyShort := by
  refine ensures_perToken (fun _ q => ∃ j, I (lines j ++ w :: ws) q) ?_ ⟨k, h⟩
  rintro - q ⟨j, hq⟩
  have hwords := hI _ _ hq
  simp only [skipStep, ensures_bind, ensures_kind, ensures_ite, ensures_pure]
  cases j with
  | zero =>
    rw [Pass.kind_of_words hwords, hw, if_neg Bool.false_ne_true]
    exact hq
  | succ j =>
    rw [Pass.kind_of_words hwords, hlines, if_pos rfl]
    refine (hadvance (lines j ++ w :: ws) q hq).imp fun _ r hr => ⟨⟨j, hr⟩, ?_⟩
    have hlong : (lines j ++ w :: ws).length + 1 = q.upcoming.length + 1 :=
      (congrArg List.length hwords).symm.trans q.length_words
    have hshort := (congrArg List.length (hI _ r hr)).symm.trans r.length_words
    omega

theorem skipWhile_here (k : Nat) (h : p.Here ps o code n (lines k ++ w :: ws))
    (hlines : skipped .newline = true) (hw : skipped w.1 = false)
    (hQ : ∀ q, q.Here ps o code n (w :: ws) → (q.previous = .newline ∨ k = 0 ∧ q = p) → Q () q) :
    Ensures (skipWhile skipped) p Q OnlyShort := by
  refine (skipWhile_lines (I := fun us q => q.Here ps o code n us ∧
    (q.previous = .newline ∨ us = lines k ++ w :: ws ∧ q = p)) (fun _ _ hq => hq.1.words) ?_
    ⟨h, .inr ⟨rfl, rfl⟩⟩ hlines hw).imp ?_
  · exact fun us q hq => advance_here hq.1 (by simp) fun r hr hprevious => ⟨hr, .inl hprevious⟩
  rintro - q ⟨hq, hq'⟩
  refine hQ q hq (hq'.imp_right fun ⟨hus, heq⟩ => ⟨?_, heq⟩)
  have hlength := congrArg List.length hus
  simp only [List.length_append, List.length_cons, lines, List.length_replicate] at hlength
  omega

/-! ## Code -/

theorem emit_here {op : Opcode} (h : p.Here ps o code n ws) (hop : op.operandCount = 0)
    (hQ : ∀ q, q.Here ps o (code ++ placed [.plain op]) n ws → q.previous = p.previous → Q () q) :
    Ensures (emit op) p Q E := by
  refine ensures_emitWith h.inOrder hop.symm fun q hq ho hr => hQ q ?_ hq.previous
  refine h.progress hq ho ((Pass.words_eq_of_rest_eq hr).trans h.words) ?_
  exact .cons rfl .nil

theorem emitJump_here (h : p.Here ps o code n ws) {l t : Nat} (hl : ps[l]? = some t)
    (hQ : ∀ q, q.Here ps o (code ++ [.jump t]) n ws → q.previous = p.previous → Q () q) :
    Ensures (emitJump l) p Q E := by
  refine ensures_emitWith h.inOrder rfl fun q hq ho hr => hQ q ?_ hq.previous
  refine h.progress hq ho ((Pass.words_eq_of_rest_eq hr).trans h.words) ?_
  exact .cons ⟨l, rfl, hl⟩ .nil

theorem emitJumpZero_here (h : p.Here ps o code n ws) {l t : Nat} (hl : ps[l]? = some t)
    (hQ : ∀ q, q.Here ps o (code ++ [.jumpZero t]) n ws → q.previous = p.previous → Q () q) :
    Ensures (emitJumpZero l) p Q E := by
  refine ensures_emitWith h.inOrder rfl fun q hq ho hr => hQ q ?_ hq.previous
  refine h.progress hq ho ((Pass.words_eq_of_rest_eq hr).trans h.words) ?_
  exact .cons ⟨l, rfl, hl⟩ .nil

/-! ## Labels and blocks -/

section

variable (h : p.Here ps o code n ws)
include h

theorem nextLabel_here {Q : Nat → Pass → Prop} (hQ : Q n p) : Ensures nextLabel p Q E := by
  obtain ⟨f, hf, hlaid⟩ := h.function
  rw [ensures_nextLabel hf.writing.function, hlaid.labels]
  exact hQ

theorem labelHere_here {Q : Nat → Pass → Prop} (hn : ps[n]? = some code.length)
    (hQ : ∀ q, q.Here ps o code (n + 1) ws → q.previous = p.previous → Q n q) :
    Ensures labelHere p Q E := by
  obtain ⟨f, hf, hlaid⟩ := h.function
  simp only [labelHere, ensures_bind, ensures_function hf.writing.function,
    ensures_makeLabel hf.writing.function, hlaid.labels]
  refine hQ _ ⟨⟨_, hf.congr rfl rfl hf.writing.makeLabel, ?_⟩, h.lenient, h.outline,
    h.words, h.clean, h.awake⟩ rfl
  refine hlaid.push .put fun offset hknown => ?_
  cases hknown
  exact ⟨hn, rfl⟩

theorem continueHere_here {Q : Nat → Pass → Prop} (hn : ps[n]? = some code.length)
    (hQ : ∀ q, q.Here ps { o with continues := n :: o.continues } code (n + 1) ws →
      q.previous = p.previous → Q n q) : Ensures continueHere p Q E := by
  rw [continueHere, ensures_bind]
  refine labelHere_here h hn fun q hq hprevious => ?_
  simp only [ensures_bind, ensures_modify, ensures_pure]
  refine hQ _ ?_ hprevious
  rw [hq.continues_eq]
  exact hq.continues _

/-- A label that will lie somewhere else. -/
theorem openExit_here {Q : Nat → Pass → Prop} (isLoop : Bool)
    (hQ : ∀ q, q.Here ps { o with exits := ⟨n, isLoop⟩ :: o.exits } code (n + 1) ws →
      q.previous = p.previous → Q n q) : Ensures (openExit isLoop) p Q E := by
  obtain ⟨f, hf, hlaid⟩ := h.function
  have hw := hf.writing.openExit isLoop
  simp only [openExit, ensures_bind, ensures_makeLabel hf.writing.function, ensures_modify, ensures_pure,
    hlaid.labels] at hw ⊢
  refine hQ _ ⟨⟨_, hf.congr rfl rfl hw, ?_⟩, h.lenient, ?_, h.words, h.clean,
    h.awake⟩ rfl
  · exact hlaid.push .put fun _ hknown => by cases hknown
  · rw [← h.outline]
    rfl

/-- The innermost block ends at the position of its label. -/
theorem resolveExit_here {x : Exit} {xs : List Exit} (hx : o.exits = x :: xs)
    (hl : ps[x.label]? = some code.length)
    (hQ : ∀ q, q.Here ps { o with exits := xs } code n ws → q.previous = p.previous → Q () q) :
    Ensures resolveExit p Q E := by
  obtain ⟨f, hf, hlaid⟩ := h.function
  have hexits : p.exits = x :: xs := h.exits_eq.trans hx
  obtain ⟨labels, hlabels, -, hw⟩ := hf.writing.resolveExit hexits
  rw [ensures_resolveExit hf.writing.function hexits hlabels]
  refine hQ _ ⟨⟨_, hf.congr rfl rfl hw, ?_⟩, h.lenient, ?_, h.words, h.clean,
    h.awake⟩ rfl
  · exact hlaid.resolve .put hl hlabels
  · rw [← h.outline]
    rfl

theorem modifyBlocks_here (change : BlockStack → BlockStack)
    (hQ : ∀ q, q.Here ps { o with blocks := change o.blocks } code n ws →
      q.previous = p.previous → Q () q) : Ensures (modifyBlocks change) p Q E := by
  rw [modifyBlocks, ensures_modify, h.blocks_eq]
  exact hQ _ (h.blocks _) rfl

end

end Compile

end DeskCalc
