import DeskCalc.Proofs.Finish
import DeskCalc.Proofs.Reachable
import DeskCalc.Proofs.Wording

/-!
# Definitions behind semicolons

Where POSIX is enforced, a definition right behind a semicolon is refused. This is checked behind
the delimiters of a statement (`Pass.Past`), and thereby for every definition that is read, unless
nothing but semicolons and line feeds stands before it in its chunk (`Unpreceded`).

An `auto` is no statement with a delimiter behind it of this kind. It does not count because a brace
is open wherever it may stand (`Session.Guarded`).
-/

namespace DeskCalc

variable {B : Option Trail} {p q r : Pass} {u v w : List Token}

/-- Only where a brace is open `auto` may follow. -/
def Session.Guarded (s : Session) : Prop := s.autoAllowed = true → s.blocks.hasBrace = true

theorem Deed.guarded (h : Deed B p v q) (hp : p.Guarded) : q.Guarded := by
  intro hauto
  have hbegun {s : Pass} (hs : Begins B p s) (hs' : s.autoAllowed = true) :
      q.blocks.hasBrace = true := by
    cases hs'.symm.trans hs.arrives.autoAllowed
  cases h with
  | inner h =>
    obtain ⟨hbefore, -, hblocks⟩ := h.autoAllowed hauto
    rw [hblocks]
    exact hp hbefore
  | enter _ _ hq =>
    rw [hq.blocks]
    rfl
  | bare hs h => exact hbegun hs (h.autoAllowed hauto).1
  | ends hs h _ _ hq =>
    exact hbegun hs (h.autoAllowed (hq.arrives.autoAllowed.symm.trans hauto)).1
  | define hbrace hr _ _ _ _ hq =>
    have hbefore := hp (hr.autoAllowed.symm.trans (hq.autoAllowed.symm.trans hauto))
    cases hbrace.symm.trans hbefore

namespace Session

variable {s : Session} {texts : String → Prop}

theorem Guarded.commit (h : s.Guarded) : s.commit.Guarded := by
  unfold Session.commit
  split
  · exact h
  · exact h

theorem guarded_reset (s : Session) : s.reset.Guarded := fun h => by cases h

theorem Guarded.finish (h : s.Guarded) (hs : s.Consistent False) : s.finish.2.Guarded := by
  cases hbrace : s.blocks.hasBrace with
  | true =>
    rw [finish_of_hasBrace hbrace]
    exact guarded_reset s
  | false =>
    obtain ⟨q, hq, hfinish⟩ := finish_of_braceless hs hbrace
    have hkept : Compile.Accepts Compile.closeAll s.atInputEnd fun _ q =>
        q.autoAllowed = s.autoAllowed :=
      (Compile.closeAll_holds hs.steady_atInputEnd.poised fun _ _ _ hq _ _ => hq.autoAllowed).mono
        (fun _ _ => id) fun _ _ _ => trivial
    rw [hfinish]
    refine Guarded.commit fun hauto => ?_
    cases hbrace.symm.trans (h ((hkept.ok hq).symm.trans hauto))

theorem Guarded.compileAnswer (h : s.Guarded) (text : String) :
    (s.compileAnswer text).2.Guarded := by
  obtain ⟨u, is, q, hq, ⟨-, heq⟩ | ⟨d, -, heq⟩⟩ := compileAnswer_cases s text <;> rw [heq] <;>
    exact fun hauto => hq.blocks ▸ h (hq.autoAllowed.symm.trans hauto)

theorem Guarded.call (h : s.Guarded) (hs : s.Consistent False) (c : Call) : (c.run s).2.Guarded := by
  cases c with
  | compile text =>
    show (s.compile text).2.Guarded
    cases hstatus : (s.compile text).1 with
    | error e =>
      obtain ⟨-, q, -, -, hq⟩ := isRefusal_of_compile hs False.elim hstatus
      rw [hq]
      exact guarded_reset _
    | ok status =>
      obtain ⟨f, hf⟩ := hs.writing
      have hstart (q : Pass) (hblocks : q.blocks = s.blocks)
          (hauto : q.autoAllowed = s.autoAllowed) : q.Guarded := by
        rw [Guarded, hauto, hblocks]
        exact h
      obtain ⟨-, q, hq, hlast, -⟩ := compile_deeds (I := fun _ q => q.Guarded) hf.function hstatus
        (fun q hblocks _ hauto _ _ => hstart q hblocks hauto)
        (fun _ _ _ _ hq _ hr => hr.guarded hq) fun _ _ hq => hq.commit
      exact hlast ▸ hq
  | finish => exact h.finish hs
  | reset => exact guarded_reset s
  | takeWarnings => exact h
  | compileAnswer text => exact h.compileAnswer text

/-- **In every session that can be reached, `auto` may follow only where a brace is open.** -/
theorem Reachable.guarded (h : s.Reachable texts) : s.Guarded := by
  obtain ⟨options, h⟩ := h
  induction h with
  | refl => exact fun h => by cases h
  | call h _ ih => exact ih.call (h.consistent (consistent_new options) False.elim) _

end Session

/-! ## Where a definition may begin -/

/-- A definition follows a semicolon only where nothing but blank tokens stands before the two. -/
def Unpreceded (v : List Token) : Prop :=
  ∀ a s t b, v = a ++ s :: t :: b → s.kind = .symbol .semicolon → t.kind = .keyword .define → Blank a

theorem Blank.append (h : Blank v) (hw : Blank w) : Blank (v ++ w) :=
  List.forall_mem_append.2 ⟨h, hw⟩

theorem Unpreceded.append (h : Unpreceded u) (hv : ∀ t ∈ v.tail, t.kind ≠ .keyword .define)
    (hedge : ∀ a s t, u = a ++ [s] → t ∈ v.head? → s.kind = .symbol .semicolon →
      t.kind = .keyword .define → Blank a) : Unpreceded (u ++ v) := by
  intro a s t b hsplit hs ht
  rw [List.append_cons] at hsplit
  rcases List.append_eq_append_iff.1 hsplit with ⟨c, hc, rfl⟩ | ⟨c, rfl, hc⟩
  · cases c with
    | nil => exact hedge a s t (by simpa using hc.symm) rfl hs ht
    | cons x c => exact absurd ht (hv t (by simp))
  · cases c with
    | nil => exact hedge a s t (by simp) (by simp [← show t :: b = v from hc]) hs ht
    | cons x c =>
      rw [List.cons_append] at hc
      obtain ⟨rfl, -⟩ := List.cons.inj hc
      exact h a s t c (by simp) hs ht

/-- Behind the tokens `u` a definition cannot begin, or nothing but blank tokens was read, or it has
been seen to that no definition follows a semicolon. -/
def Pass.Checked (u : List Token) (p : Pass) : Prop :=
  p.blocks.hasBrace = true ∨ Blank u ∨ p.Past

namespace Pass.Checked

/-- Blank tokens do not count. -/
theorem blank (h : p.Checked u) (hq : p.Onward v q) (hv : Blank v)
    (hbraces : q.blocks.openBraces = p.blocks.openBraces) : q.Checked (u ++ v) := by
  rcases h with h | h | h
  · exact .inl ((BlockStack.hasBrace_congr hbraces).trans h)
  · exact .inr (.inl (h.append hv))
  · obtain ⟨auto, hq⟩ := hq
    cases v with
    | nil =>
      have hsame : q.token = p.token := ((List.cons.inj hq.rest).1).symm
      refine .inr (.inr ⟨hsame ▸ h.semicolon, hsame ▸ h.newline, ?_⟩)
      rw [hsame, show q.previous = p.previous from hq.previous, hq.strictness]
      exact h.define
    | cons t v =>
      obtain rfl : p.token = t := (List.cons.inj hq.rest).1
      rcases hv _ List.mem_cons_self with hk | hk
      · exact absurd hk h.semicolon
      · exact absurd hk h.newline

theorem ended (h : p.Checked u) (hstrict : p.strictness = .strict) (hq : Ended none p v q) :
    q.Checked (u ++ v) := by
  obtain ⟨left, hs, -⟩ := hq.closed.shut
  refine h.blank ⟨_, hq.arrives.toFrom⟩ (fun t ht => ?_) ?_
  · rcases hs.found with ⟨hv, -⟩ | ⟨-, hmode, -⟩
    · by_contra hne
      have hmem := mem_kindsOf_of_mem ht fun hk => hne (.inr hk)
      simp [hv] at hmem
    · exact absurd hstrict hmode
  · have hbraces := hs.braces
    cases left with
    | false => simpa using hbraces
    | true => cases hs.spent rfl

theorem made (h : p.Checked u) (hguarded : p.Guarded) (hstrict : p.strictness = .strict)
    (hq : Made none p v q) : q.Checked (u ++ v) := by
  have honward := hq.onward
  cases hq with
  | blank _ _ _ hv hq => exact h.blank honward hv (by rw [hq.blocks])
  | quit => exact h.blank honward (by simp [Blank]) rfl
  | auto hauto _ _ hq => exact .inl (hq.blocks ▸ hguarded hauto)
  | plain _ _ _ _ hpast => exact .inr (.inr hpast)
  | settle _ _ hq =>
    refine h.blank honward (by simp [Blank]) ?_
    rw [hq.blocks, BlockStack.mark, BlockStack.openBraces_modifyTop rfl]
  | settleEnd _ _ hr hq =>
    have hposed := h.blank (v := []) ⟨false, hr.toFrom⟩ (by simp [Blank])
      (by rw [hr.blocks, BlockStack.mark, BlockStack.openBraces_modifyTop rfl])
    rw [List.append_nil] at hposed
    exact hposed.ended (hr.strictness.trans hstrict) hq
  | brace _ _ hq =>
    refine .inl ?_
    rw [hq.blocks]
    rfl

end Pass.Checked

/-- What holds behind the tokens `u`, see above. -/
structure Separate (u : List Token) (p : Pass) : Prop where
  strict : p.strictness = .strict
  guarded : p.Guarded
  previous : p.previous = (u.getLast?.map (·.kind)).getD .newline
  apart : Unpreceded u
  checked : p.Checked u

namespace Separate

theorem reads (h : Separate u p) (hq : p.Onward v q) (hguarded : q.Guarded)
    (hapart : Unpreceded (u ++ v)) (hchecked : q.Checked (u ++ v)) : Separate (u ++ v) q where
  strict := hq.strictness.trans h.strict
  guarded := hguarded
  previous := by
    obtain ⟨auto, hq⟩ := hq
    rw [hq.previous, List.getLast?_append]
    cases v.getLast? with
    | none => exact h.previous
    | some t => rfl
  apart := hapart
  checked := hchecked

/-- **Every deed keeps definitions away from semicolons.** -/
theorem deed (h : Separate u p) (hq : Deed none p v q) : Separate (u ++ v) q := by
  have hguarded := hq.guarded h.guarded
  have honward := hq.onward
  have hdefine : Keyword.define = .define ∧ false = false ∨ Keyword.define = .autoDecl ∧ true = false :=
    .inl ⟨rfl, rfl⟩
  have hquiet {w : List Token} (hw : ∀ t ∈ w, t.kind ≠ .keyword .define) : Unpreceded (u ++ w) :=
    h.apart.append (fun t ht => hw t (List.mem_of_mem_tail ht))
      fun _ _ t _ ht _ hk => absurd hk (hw t (List.mem_of_mem_head? ht))
  have hbegun {s : Pass} (hs : Begins none p s) :
      s.Checked u ∧ s.Guarded ∧ s.strictness = .strict := by
    have hposed := h.checked.blank hs.onward (by simp [Blank])
      (by rw [hs.arrives.blocks, BlockStack.openBraces_modifyTop rfl])
    rw [List.append_nil] at hposed
    refine ⟨hposed, fun hauto => ?_, hs.onward.strictness.trans h.strict⟩
    cases hauto.symm.trans hs.arrives.autoAllowed
  cases hq with
  | inner hmade =>
    exact h.reads honward hguarded (hquiet ((hmade.wording fun _ => rfl).ne hdefine))
      (h.checked.made h.guarded h.strict hmade)
  | enter ht _ hq =>
    refine h.reads honward hguarded (hquiet (by simp [ht])) (.inl ?_)
    rw [hq.blocks]
    rfl
  | bare hs hmade =>
    obtain ⟨hposed, hguarded', hstrict⟩ := hbegun hs
    exact h.reads honward hguarded (hquiet ((hmade.wording fun _ => rfl).ne hdefine))
      (hposed.made hguarded' hstrict hmade)
  | ends hs hmade _ _ hq =>
    obtain ⟨hposed, hguarded', hstrict⟩ := hbegun hs
    have hended := (hposed.made hguarded' hstrict hmade).ended
      (hmade.onward.strictness.trans hstrict) hq
    rw [List.append_assoc] at hended
    exact h.reads honward hguarded (hquiet
      (List.forall_mem_append.2 ⟨(hmade.wording fun _ => rfl).ne hdefine,
        hq.wording.ne hdefine⟩)) hended
  | @define t w _ r _ hbrace hr ht hv _ _ hq hopen =>
    have hnext := hopen h.strict
    refine h.reads honward hguarded (h.apart.append ?_ fun a s _ hu _ hs _ => ?_)
      (.inr (.inr ⟨by simp [hnext], by simp [hnext], fun _ hk => by simp [hnext] at hk⟩))
    · have hwords : Wording p.strictness false true w [] := .mild [] hv
      exact hwords.ne hdefine
    · rcases h.checked with hbrace' | hblank | hpast
      · cases hbrace.symm.trans hbrace'
      · exact fun x hx => hblank x (by simp [hu, hx])
      · have htoken : p.token = t := (List.cons.inj honward.rest).1
        have hprevious : p.previous = s.kind := by simp [h.previous, hu]
        exact absurd (hprevious.trans hs) (hpast.define h.strict (htoken ▸ ht))

theorem commit (h : Separate u p) : Separate u { p with toSession := p.toSession.commit } := by
  unfold Session.commit
  split
  · refine ⟨h.strict, h.guarded, h.previous, h.apart, h.checked.imp_right (.imp_right fun hpast => ?_)⟩
    exact { hpast with }
  · exact h

end Separate

namespace Session

/-- **Where POSIX is enforced, a text with a definition right behind a semicolon is refused**, unless
nothing but semicolons and line feeds stands before the definition. This is so of all that is read,
which is the whole text unless the chunk ends with a `quit`, in every session that calls lead to
without an answer inside a definition. -/
theorem definitions_apart {s : Session} {texts : String → Prop} (h : s.Reachable texts)
    (hstrict : s.strictness = .strict) (source : String) {status : Status}
    (haccepted : (s.compile source).1 = .ok status) :
    ∃ read unread, sourceTokens .strict source = read ++ unread ∧ Unpreceded read ∧
      (unread.map (·.kind) = [.eof] ∨
        status = .quit ∧ unread.head?.map (·.kind) = some (.keyword .quit)) := by
  have hs : s.Consistent False := h.consistent False.elim
  obtain ⟨f, hf⟩ := hs.writing
  have hstart (q : Pass) (hblocks : q.blocks = s.blocks) (hmode : q.strictness = s.strictness)
      (hauto : q.autoAllowed = s.autoAllowed) (hprevious : q.previous = .newline) :
      DeskCalc.Separate [] q := by
    refine ⟨hmode.trans hstrict, ?_, hprevious, by simp [Unpreceded], .inr (.inl (by simp [Blank]))⟩
    rw [Guarded, hauto, hblocks]
    exact h.guarded
  obtain ⟨u, q, hq, -, -, htokens, hend⟩ := compile_deeds hf.function haccepted
    (fun q hblocks hmode hauto hprevious _ => hstart q hblocks hmode hauto hprevious)
    (fun _ _ _ _ hq _ hr => hq.deed hr) fun _ _ hq => hq.commit
  rw [hstrict] at htokens
  refine ⟨u, q.rest, htokens, hq.apart, hend.imp (fun h => h.2.2) fun h => ⟨h.1, ?_⟩⟩
  exact congrArg some h.2

/-- A definition that is open, in a text that ends behind its `auto`. -/
def openAutoText : String := "define f(x) \x7b\nauto y\n"

/-- The rest of that definition, and another one behind a semicolon and a line feed. -/
def secondDefinitionText : String := "y = x;\nreturn (y)\n\x7d;\ndefine g() \x7b\n\x7d\n"

theorem definitions_apart_second :
    ((new { strictness := .strict }).compile openAutoText).2.Reachable (· = openAutoText) ∧
      (((new { strictness := .strict }).compile openAutoText).2.compile secondDefinitionText).1 =
        .ok .ready ∧
      ∃ read unread, sourceTokens .strict secondDefinitionText = read ++ unread ∧
        Unpreceded read ∧ (unread.map (·.kind) = [.eof] ∨ Status.ready = .quit ∧
          unread.head?.map (·.kind) = some (.keyword .quit)) := by
  have hreachable : ((new { strictness := .strict }).compile openAutoText).2.Reachable
      (· = openAutoText) := (Reachable.new _).compile rfl
  have haccepted : (((new { strictness := .strict }).compile openAutoText).2.compile
      secondDefinitionText).1 = .ok .ready := by decide +kernel
  exact ⟨hreachable, haccepted,
    definitions_apart hreachable (by decide +kernel) secondDefinitionText haccepted⟩

/-- A definition behind the semicolon that begins the text is accepted. -/
theorem leading_semicolon_accepted :
    ((new { strictness := .strict }).compile ";define f() \x7b\n\x7d\n").1 = .ok .ready ∧
      ∃ behind, (sourceTokens .strict ";define f() \x7b\n\x7d\n").map (·.kind) =
        .symbol .semicolon :: .keyword .define :: behind :=
  ⟨by decide +kernel, [.name, .symbol .leftParen, .symbol .rightParen, .symbol .leftBrace, .newline,
    .symbol .rightBrace, .newline, .eof], by decide +kernel⟩

end Session

end DeskCalc
