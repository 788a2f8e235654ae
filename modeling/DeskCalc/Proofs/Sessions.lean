import DeskCalc.Proofs.Statements
import DeskCalc.Proofs.Tokens
import DeskCalc.Session.Compile

/-!
# Between chunks

A session is `Consistent` between two chunks of source: its program is as `Writing` has it with an
empty stack, and its stacks of blocks and labels are balanced. A new session is consistent, and so
is every session after `compile`, `finish`, `reset` and `compileAnswer`, whatever the outcome was.
A failure of the compiler itself is none of the outcomes.
-/

namespace DeskCalc

variable {B : Prop} {s : Session} {f : Function} {p q : Pass}

/-- The outline of a session. -/
def Session.outline (s : Session) : Outline := ⟨s.blocks, s.exits, s.continues, s.target, false⟩

/-- Between two chunks. -/
structure Session.Consistent (B : Prop) (s : Session) : Prop where
  writing : ∃ f, Writing B s f []
  balanced : s.outline.Balanced
  declared : s.draft.Declared

theorem Pass.Steady.consistent {B : Trail} (h : p.Steady B) :
    p.toSession.Consistent B.limited := by
  obtain ⟨f, hf⟩ := h.stands
  exact ⟨⟨f, hf.writing⟩, { h.balanced with }, hf.draft_declared⟩

namespace Session

theorem Consistent.recoverable (h : s.Consistent B) : Recoverable B s := by
  obtain ⟨f, hf⟩ := h.writing
  exact hf.recoverable

/-- A pass over a chunk starts steady. -/
theorem Consistent.start (h : s.Consistent B) {source : String}
    (hshort : B → source.toList.length < wordBound) : (Pass.start s source).Steady B := by
  obtain ⟨f, hf⟩ := h.writing
  have hstands : (Pass.start s source).Stands B f [] :=
    ⟨inOrder_start hf.function source, hf, fun hB => ?_⟩
  · exact ⟨⟨f, hstands.drafts h.declared⟩, { h.balanced with }⟩
  · exact Nat.le_trans (length_readTokens_le s.strictness source) (hshort hB)

/-! ## Checkpoints -/

theorem balanced_empty (quitting : Bool) :
    Outline.Balanced ⟨{}, [], [], Program.mainId, quitting⟩ where
  nested := .outermost false
  exits := rfl
  continues := rfl
  ended := nofun
  target := by simp

/-- Where nothing is open the main code is settled, so that its end can be a checkpoint. -/
theorem writing_commit (h : Writing B s f []) (hbal : s.outline.Balanced) :
    Writing B s.commit f [] := by
  unfold commit
  split
  · next hready =>
    simp only [isReady, Bool.and_eq_true, beq_iff_eq] at hready
    obtain ⟨hexits, -, -⟩ := hbal.of_isIdle hready.2
    have hf := h.function
    rw [hready.1] at hf
    have hmain : s.program.main = f := Option.some.inj hf
    have hset : s.program.main.Settled B := hmain ▸ h.settled hexits
    exact { h with anchored := hset.anchored }
  · exact h

theorem program_commit (s : Session) : s.commit.program = s.program := by
  unfold commit
  split <;> rfl

theorem outline_commit (s : Session) : s.commit.outline = s.outline := by
  unfold commit
  split <;> rfl

theorem declared_commit (h : s.draft.Declared) : s.commit.draft.Declared := by
  unfold commit
  split <;> exact h

theorem Consistent.commit (h : s.Consistent B) : s.commit.Consistent B := by
  obtain ⟨f, hf⟩ := h.writing
  exact ⟨⟨f, writing_commit hf h.balanced⟩, outline_commit s ▸ h.balanced,
    declared_commit h.declared⟩

theorem consistent_new (options : Options) : (new options).Consistent B := by
  have hset (i : Nat) (g : Function) (hg : (new options).program.function? i = some g) :
      g.Settled B := by
    rcases i with _ | _ | i
    · cases hg
      exact Function.settled_of_empty rfl rfl
    · cases hg
      exact Function.settled_of_empty rfl rfl
    · simp [Program.function?, new, Program.new, Store.new] at hg
  refine ⟨⟨(new options).program.main, ?_⟩, balanced_empty false, fun hne => absurd rfl hne⟩
  exact writing_of_settled rfl hset rfl (hset Program.mainId _ rfl).anchored ⟨rfl, rfl⟩ rfl

/-! ## Going back -/

/-- A definition that is given up leaves an empty function behind. -/
theorem abandonDefinition_settled (h : Recoverable B s) :
    s.abandonDefinition.program.main = s.program.main ∧
      s.abandonDefinition.program.answer.name = "(read)" ∧
      ∀ i g, i ≠ Program.mainId → s.abandonDefinition.program.function? i = some g →
        g.Settled B := by
  unfold abandonDefinition
  split
  · next hmain => exact ⟨rfl, h.names.2, fun i g hi => h.others i g (hmain ▸ hi) hi⟩
  · next hmain =>
    refine ⟨?_, ?_, fun i g hi hg => ?_⟩
    · rw [Program.main_modifyFunction, if_neg hmain]
    · exact Program.Grows.modify.names_eq.2.trans h.names.2
    · rw [Program.function?_modifyFunction] at hg
      split at hg
      · obtain ⟨k, -, rfl⟩ := Option.map_eq_some_iff.1 hg
        exact Function.settled_of_empty rfl rfl
      · next hid => exact h.others i g hid hi hg

theorem target_reset (s : Session) : s.reset.target = Program.mainId := by
  simp only [reset, rollBack, abandonDefinition]
  split
  · next hmain => exact hmain
  · rfl

theorem checkpoint_reset (s : Session) : s.reset.checkpoint = s.checkpoint := by
  simp only [reset, rollBack, abandonDefinition]
  split <;> rfl

/-- Giving up a definition does not touch the main code, which is then cut at the checkpoint. -/
theorem main_reset_eq_cut (s : Session) : s.reset.program.main = s.program.main.cut s.checkpoint := by
  have hsame : s.reset.program.main = s.abandonDefinition.program.main.cut s.reset.checkpoint := rfl
  rw [hsame, checkpoint_reset]
  unfold abandonDefinition
  split
  · rfl
  · next hmain => rw [Program.main_modifyFunction, if_neg hmain]

/-- **A session that can be taken back to its checkpoint is consistent there.** -/
theorem consistent_reset (h : Recoverable B s) : s.reset.Consistent B := by
  obtain ⟨-, hanswer, hothers⟩ := abandonDefinition_settled h
  have htarget := target_reset s
  have hpoint := checkpoint_reset s
  have hcut := main_reset_eq_cut s
  have hset : s.reset.program.main.Settled B := hcut ▸ h.anchored.settled_cut
  refine ⟨⟨s.reset.program.main, writing_of_settled ?_ ?_ rfl ?_ ⟨?_, hanswer⟩ rfl⟩, ?_,
    fun hne => absurd htarget hne⟩
  · rw [htarget]
    rfl
  · intro i g hg
    rcases i with _ | _ | i
    · cases hg
      exact hset
    · exact hothers Program.answerId g (by decide) hg
    · exact hothers (i + 2) g (by simp [Program.mainId]) hg
  · rw [hcut, hpoint]
    exact h.anchored.anchored_cut
  · rw [hcut]
    exact h.names.1
  · rw [outline, htarget]
    exact balanced_empty false

end Session

/-! ## Chunks -/

/-- The trail of a run that begins here. -/
abbrev Pass.trail (p : Pass) (anew : String → Prop) : Trail := ⟨False, (· = p.draft), anew⟩

namespace Compile

theorem weight_le_itemBound (p : Pass) : p.weight ≤ itemBound p := by
  have hmark : p.blocks.top.ifEnded.toNat ≤ 1 := Bool.toNat_le _
  rw [Pass.weight, itemBound]
  omega

theorem steady_commit (h : p.Steady B) :
    Pass.Steady B { p with toSession := p.toSession.commit } := by
  obtain ⟨f, hf⟩ := h.stands
  have hw := Session.writing_commit hf.writing h.consistent.balanced
  have hstands := hf.toStands.congr (q := { p with toSession := p.toSession.commit }) rfl rfl hw
  refine ⟨⟨f, hstands.drafts (Session.declared_commit hf.draft_declared)⟩, ?_⟩
  exact { (Session.outline_commit p.toSession ▸ h.consistent.balanced) with }

theorem blocks_commit (s : Session) : s.commit.blocks = s.blocks :=
  congrArg Outline.blocks (Session.outline_commit s)

theorem poised_commit {B : Option Trail} (hB : ∀ b ∈ B, b = Trail.free b.limited)
    (h : p.Poised B) : Pass.Poised B { p with toSession := p.toSession.commit } := by
  obtain ⟨f, hf⟩ := h.inOrder.function
  refine ⟨h.inOrder.congr (g := f) rfl rfl ?_, fun b hb => ?_⟩
  · show p.toSession.commit.program.function? p.toSession.commit.target = some f
    unfold Session.commit
    split <;> exact hf
  · have hp := h.steady b hb
    rw [hB b hb] at hp ⊢
    exact steady_commit hp

/-- **A chunk is a sequence of deeds**, with checkpoints between them, up to its end or a `quit`.
What holds of the tokens `u` that were read, and is kept by every deed, holds in the end. -/
theorem chunk_deeds {B : Option Trail} (hB : ∀ b ∈ B, b = Trail.free b.limited)
    {I : List Token → Pass → Prop} (h : p.Poised B) (hgo : p.quitting = false)
    (heof : p.token.kind ≠ .eof) (hstart : ∀ q, q.Arrives B p [p.token] p.blocks → I [] q)
    (hdeed : ∀ u v q r, I u q → q.quitting = false → Deed B q v r → I (u ++ v) r)
    (hcommit : ∀ u q, I u q → I u { q with toSession := q.toSession.commit }) :
    Ensures chunk p (fun status q => q.Poised B ∧
      (∃ u, I u q ∧ p.rest = p.token :: (u ++ q.rest)) ∧
      (status = q.status ∧ q.quitting = false ∧ q.token.kind = .eof ∨
        status = .quit ∧ q.token.kind = .keyword .quit)) (Declines B) := by
  obtain ⟨f, hf⟩ := h.midway
  -- the tokens are the same ones, and only at a `quit` the chunk is to end
  let J (u : List Token) (q : Pass) : Prop := I u q ∧ p.rest = p.token :: (u ++ q.rest) ∧
    (q.quitting = true → q.token.kind = .keyword .quit)
  have hJ (u v : List Token) (q r : Pass) (hq : J u q) (hgo : q.quitting = false)
      (hr : Deed B q v r) : J (u ++ v) r := by
    refine ⟨hdeed u v q r hq.1 hgo hr, ?_, fun hquit => ?_⟩
    · rw [hq.2.1, hr.onward.rest, List.append_assoc]
    · rcases hr.quitting with hsame | ⟨-, hk⟩
      · cases hgo.symm.trans (hsame.symm.trans hquit)
      · exact hk
  rw [chunk, ensures_bind]
  refine advance_holds hf heof fun q hq => ?_
  have harrives := arrives_of_midway h hq
  rw [ensures_bind, ensures_get]
  refine iterate_holds Pass.weight (fun _ r => r.Poised B ∧ r.quitting = false ∧ ∃ u, J u r) ?_ _ _ q
    ⟨harrives.toPoised, harrives.quitting.trans hgo, [], hstart q harrives, harrives.rest,
      fun hquit => ?_⟩ ?_
  · rintro - r ⟨hr, hgo, u, hu⟩
    simp only [nextItem, itemEnd, ensures_bind, ensures_isAt, ensures_ite, ensures_get, ensures_pure]
    split
    · next hend => exact ⟨hr, ⟨u, hu.1, hu.2.1⟩, .inl ⟨trivial, hgo, beq_iff_eq.1 hend⟩⟩
    · refine item_holds (fun b hb _ _ => by rw [hB b hb]; trivial) hr fun v t ht => ?_
      obtain ⟨ht', hrest, hquit⟩ := ht.induct hgo hu hJ
      split
      · next hstop => exact ⟨ht.poised, ⟨_, ht', hrest⟩, .inr ⟨trivial, hquit hstop⟩⟩
      · next hstop =>
        rw [ensures_modify]
        refine ⟨⟨poised_commit hB ht.poised, eq_false_of_ne_true hstop, _, hcommit _ _ ht', hrest,
          hquit⟩, fun b hb => ?_⟩
        rw [Pass.weight, committed, blocks_commit]
        exact (ht.weight hb).resolve_left hstop
  · rw [harrives.quitting, hgo] at hquit
    cases hquit
  · rw [List.length_replicate]
    exact weight_le_itemBound q

/-- **A chunk keeps a session consistent**, and it answers with the status of the session unless
it met a `quit`. -/
theorem chunk_holds (h : p.Steady B) (hgo : p.quitting = false) (heof : p.token.kind ≠ .eof) :
    Ensures chunk p (fun status q => q.Steady B ∧ (status ≠ .quit → status = q.status))
      (Fails B) := by
  refine (chunk_deeds (I := fun _ _ => True) (by simp [Trail.free]) h.poised hgo heof
    (fun _ _ => trivial) (fun _ _ _ _ _ _ _ => trivial) fun _ _ _ => trivial).mono ?_
    fun _ _ he => he _ rfl
  rintro status q ⟨hq, -, hstatus⟩
  refine ⟨hq.steady _ rfl, fun hne => ?_⟩
  rcases hstatus with ⟨hsame, -⟩ | ⟨hquit, -⟩
  · exact hsame
  · exact absurd hquit hne

theorem advance_steady {B : Trail} (h : p.Steady B) (heof : p.token.kind ≠ .eof) :
    Ensures advance p (fun _ q => q.Steady B) (Fails B) := by
  obtain ⟨f, hf⟩ := h.poised.midway
  have hread := advance_holds (Q := fun _ q => q.Steady B) hf heof fun q hq =>
    (arrives_of_midway h.poised hq).steady B rfl
  exact hread.mono (fun _ _ => id) fun _ _ he => he B rfl

theorem closeAll_steady {B : Trail} (h : p.Steady B) :
    Ensures closeAll p (fun all q => q.Steady B ∧ (all = true → q.blocks.isIdle = true))
      (Fails B) := by
  refine (closeAll_holds (Q := fun all q => q.Steady B ∧ (all = true → q.blocks.isIdle = true))
    h.poised fun all v q hq _ hall => ⟨hq.steady B rfl, fun hyes => ?_⟩).mono
    (fun _ _ => id) fun _ _ he => he B rfl
  rw [(hall hyes).1]
  rfl

/-- **Every item does something.** -/
theorem item_steady {B : Trail} (hB : ∀ name, p.Heads name → B.anew name) (h : p.Steady B) :
    Ensures item p (fun _ q => q.Steady B ∧ (q.quitting = true ∨ q.weight < p.weight))
      (Fails B) := by
  have hitem := item_holds (Q := fun _ q => q.Steady B ∧ (q.quitting = true ∨ q.weight < p.weight))
    (by simpa using hB) h.poised fun v q hq => ⟨hq.poised.steady B rfl, hq.weight rfl⟩
  exact hitem.mono (fun _ _ => id) fun _ _ he => he B rfl

/-- Behind the end of the input nothing is open. -/
theorem inputEnd_holds {B : Trail} (h : p.Steady B) (heof : p.token.kind ≠ .eof) :
    Ensures inputEnd p (fun _ q => q.Steady B ∧ q.blocks.isIdle = true) (Fails B) := by
  rw [inputEnd, ensures_bind]
  refine (advance_steady h heof).imp fun _ q hq => ?_
  rw [ensures_bind]
  refine (closeAll_steady hq).imp fun all r hr => ?_
  rw [ensures_ite]
  split
  · next hall => exact ⟨hr.1, hr.2 hall⟩
  · obtain ⟨g, hg⟩ := hr.1.stands
    exact hg.fails _

/-! ## What a part of the compiler changes -/

/-- A run that begins here makes only the changes of statements, and of definitions of `anew`. -/
theorem edits_of_holds {α : Type} {m : Compile α} {anew : String → Prop} (h : p.Steady False)
    (hm : p.Steady (p.trail anew) → Ensures m p (fun _ q => q.Steady (p.trail anew))
      (Fails (p.trail anew))) :
    Ensures m p (fun _ q => q.Steady False ∧ p.draft.Edits anew 0 q.draft)
      (fun e q => e.IsRefusal ∧ ∃ n, p.draft.Edits anew n q.draft) := by
  obtain ⟨f, hf⟩ := h.stands
  refine (hm ⟨⟨f, hf.toStands, ⟨_, rfl, .refl⟩, hf.declared⟩, h.balanced⟩).mono ?_ ?_
  · rintro - q ⟨⟨g, hg⟩, hbalanced⟩
    obtain ⟨_, rfl, hedits⟩ := hg.reaches
    exact ⟨⟨⟨g, hg.toStands.drafts hg.draft_declared⟩, hbalanced⟩, hedits⟩
  · rintro e q ⟨he, -, n, _, rfl, hedits⟩
    exact ⟨he, n, hedits⟩

theorem advance_edits (anew : String → Prop) (h : p.Steady False) (heof : p.token.kind ≠ .eof) :
    Ensures advance p (fun _ q => q.Steady False ∧ p.draft.Edits anew 0 q.draft)
      (fun e q => e.IsRefusal ∧ ∃ n, p.draft.Edits anew n q.draft) :=
  edits_of_holds h fun hp => advance_steady hp heof

/-- **What an item changes.** A function begins only if its header stands here. -/
theorem item_edits (h : p.Steady False) :
    Ensures item p (fun _ q => q.Steady False ∧ p.draft.Edits p.Heads 0 q.draft)
      (fun e q => e.IsRefusal ∧ ∃ n, p.draft.Edits p.Heads n q.draft) :=
  edits_of_holds h fun hp => (item_steady (fun _ => id) hp).imp fun _ _ => And.left

/-- **What the end of the input changes.** No definition begins there. -/
theorem inputEnd_edits (anew : String → Prop) (h : p.Steady False) (heof : p.token.kind ≠ .eof) :
    Ensures inputEnd p (fun _ q => q.Steady False ∧ p.draft.Edits anew 0 q.draft)
      (fun e q => e.IsRefusal ∧ ∃ n, p.draft.Edits anew n q.draft) :=
  edits_of_holds h fun hp => (inputEnd_holds hp heof).imp fun _ _ => And.left

end Compile

/-- The tokens of a text. -/
def sourceTokens (mode : Strictness) (source : String) : List Token :=
  (readTokens mode source).map (·.token)

namespace Session

/-- **An accepted text is read to its end, or up to a `quit`.** What every deed keeps holds of all
that is read. Nothing is known of the session but that there is a function to write to. -/
theorem compile_deeds {I : List Token → Pass → Prop} (hf : s.program.function? s.target = some f)
    {source : String} {status : Status} (haccepted : (s.compile source).1 = .ok status)
    (hstart : ∀ q : Pass, q.blocks = s.blocks → q.strictness = s.strictness →
      q.autoAllowed = s.autoAllowed → q.previous = .newline →
      q.rest = sourceTokens s.strictness source → I [] q)
    (hdeed : ∀ u v q r, I u q → q.quitting = false → Deed none q v r → I (u ++ v) r)
    (hcommit : ∀ u q, I u q → I u { q with toSession := q.toSession.commit }) :
    ∃ u q, I u q ∧ (s.compile source).2 = q.toSession ∧ q.InOrder ∧
      sourceTokens s.strictness source = u ++ q.rest ∧
      (status ≠ .quit ∧ q.quitting = false ∧ q.rest.map (·.kind) = [.eof] ∨
        status = .quit ∧ q.token.kind = .keyword .quit) := by
  have hpoised : (Pass.start s source).Poised none := ⟨inOrder_start hf source, by simp⟩
  have hchunk := Compile.chunk_deeds (by simp) hpoised rfl (by simp [Pass.start])
    (fun q hq => hstart q hq.blocks hq.strictness hq.autoAllowed hq.previous
      (List.cons.inj hq.rest).2.symm) hdeed hcommit
  cases hrun : Compile.chunk (Pass.start s source) with
  | error e q =>
    rw [compile, run, hrun] at haccepted
    cases e <;> cases haccepted
  | ok a q =>
    have hresult : s.compile source = (.ok a, q.toSession) := by rw [compile, run, hrun]
    rw [hresult] at haccepted ⊢
    cases haccepted
    obtain ⟨hq, ⟨u, hu, hrest⟩, hend⟩ := hchunk.ok hrun
    have htokens : sourceTokens s.strictness source = u ++ q.rest := (List.cons.inj hrest).2
    refine ⟨u, q, hu, rfl, hq.inOrder, htokens, hend.imp_left fun h => ?_⟩
    obtain ⟨hstatus, hgo, heof⟩ := h
    refine ⟨?_, hgo, ?_⟩
    · rw [hstatus, Session.status]
      split <;> simp
    · -- the end of the text is the only token of its kind
      obtain ⟨rs, r, hrs, hr, hne⟩ := exists_readTokens_eq s.strictness source
      have hkinds := congrArg (List.map (·.kind)) htokens
      simp only [sourceTokens, hrs, List.map_append, List.map_map, Pass.rest, List.map_cons, heof,
        hr] at hkinds
      have hnone : Token.Kind.eof ∉ rs.map ((·.kind) ∘ (·.token)) := by simpa using hne
      obtain ⟨-, -, hlast⟩ :=
        (List.append_cons_inj_of_notMem hnone List.not_mem_nil).1 hkinds
      rw [Pass.rest, List.map_cons, heof, List.map_map, ← hlast]

/-- What a chunk comes to: a refusal, after which the session can be taken back, is the only failure. -/
theorem compile_cases (h : s.Consistent B) {text : String}
    (hshort : B → text.toList.length < wordBound) :
    (∃ status q, Compile.chunk (Pass.start s text) = .ok status q ∧
      s.compile text = (.ok status, q.toSession)) ∨
    ∃ d q, Compile.chunk (Pass.start s text) = .error (.refused d) q ∧ Recoverable B q.toSession ∧
      s.compile text = (.error (.refused d), q.reset) := by
  have hchunk := Compile.chunk_holds (h.start hshort) rfl (by simp [Pass.start])
  unfold compile run
  cases hm : Compile.chunk (Pass.start s text) with
  | ok status q => exact .inl ⟨status, q, rfl, rfl⟩
  | error e q =>
    obtain ⟨⟨d, rfl⟩, hrec, -⟩ := hchunk.error hm
    exact .inr ⟨d, q, rfl, hrec, rfl⟩

theorem finish_cases (h : s.Consistent B) :
    (∃ q, Compile.inputEnd (Pass.start s "") = .ok () q ∧ s.finish = (.ok (), q.commit)) ∨
    ∃ d q, Compile.inputEnd (Pass.start s "") = .error (.refused d) q ∧
      Recoverable B q.toSession ∧ s.finish = (.error (.refused d), q.reset) := by
  have hstart : (Pass.start s "").Steady B := h.start fun _ => by decide
  have hend := Compile.inputEnd_holds hstart (by simp [Pass.start])
  unfold finish run
  cases hm : Compile.inputEnd (Pass.start s "") with
  | ok _ q => exact .inl ⟨q, rfl, rfl⟩
  | error e q =>
    obtain ⟨⟨d, rfl⟩, hrec, -⟩ := hend.error hm
    exact .inr ⟨d, q, rfl, hrec, rfl⟩

/-- **Compiling a chunk**, and what it means that nothing is open afterwards. -/
theorem consistent_compile (h : s.Consistent B) (source : String)
    (hshort : B → source.toList.length < wordBound) :
    (s.compile source).2.Consistent B ∧
      ((s.compile source).1 = .ok .ready → (s.compile source).2.isReady = true) := by
  rcases compile_cases h hshort with ⟨status, q, hm, heq⟩ | ⟨d, q, -, hrec, heq⟩ <;> rw [heq]
  · have hchunk := Compile.chunk_holds (h.start hshort) rfl (by simp [Pass.start])
    obtain ⟨hq, hstatus⟩ := hchunk.ok hm
    refine ⟨hq.consistent, fun hready => ?_⟩
    cases hready
    have hsame := hstatus (by simp)
    simp only [Session.status] at hsame
    split at hsame
    · next hyes => exact hyes
    · cases hsame
  · exact ⟨consistent_reset hrec, by simp⟩

/-- **The end of the input.** -/
theorem consistent_finish (h : s.Consistent B) : s.finish.2.Consistent B := by
  rcases finish_cases h with ⟨q, hm, heq⟩ | ⟨d, q, -, hrec, heq⟩ <;> rw [heq]
  · have hstart : (Pass.start s "").Steady B := h.start fun _ => by decide
    exact ((Compile.inputEnd_holds hstart (by simp [Pass.start])).ok hm).1.consistent.commit
  · exact consistent_reset hrec

end Session

/-! ## Answers -/

/-- The code of an answer takes its value off again. -/
theorem Compile.answer_sound (hp : p.InOrder) (heof : p.token.kind ≠ .eof) :
    Ensures answer p
      (fun _ q => ∃ u is, p.Progress u is q ∧ q.operators = p.operators ∧
        (∀ c ∈ is, c.1.isJump = true → c.2 = []) ∧
        (p.upcoming.length ≤ wordBound → execute is [] = some []))
      p.Refused := by
  rw [answer, ensures_bind]
  refine (ensures_advance hp heof).mono ?_ fun e q ⟨he, hq, _⟩ => ⟨he, _, _, hq⟩
  rintro - q ⟨hq, hoq, -⟩
  rw [ensures_bind]
  refine (expression_sound (hq.inOrder hp)).mono ?_ fun _ _ => hq.refused
  rintro - r ⟨e, u, ⟨he, -⟩, hu, hr⟩
  obtain ⟨is, his, hplain, hrun⟩ := runs_of_compiles he hu hr (fun _ => rfl) nofun
  refine ensures_emitWith (his.inOrder (hq.inOrder hp)) rfl fun t ht hot _ => ?_
  refine ⟨_, _, (hq.trans his).trans ht, ?_, fun c hc => ?_, fun hshort => ?_⟩
  · rw [hot, hr.operators, hoq]
  · rcases List.mem_append.1 hc with hc | hc
    · exact hplain c hc
    · cases List.mem_singleton.1 hc
      exact fun _ => rfl
  · have hle : q.upcoming.length ≤ wordBound := by
      have := hq.length_eq
      omega
    have hscalar := Expr.isScalar_entry e he
    simp [execute_append, hrun hle, Expr.left, execute, Opcode.step, Opcode.effect,
      Entry.takeScalars, hscalar]

theorem Program.function?_answer (P : Program) (change : Function → Function) {i : Nat}
    (hi : i ≠ answerId) : (P.modifyFunction change answerId).function? i = P.function? i := by
  rw [function?_modifyFunction, if_neg hi]

namespace Session

/-- Only the answer changes while it is compiled, and new names get functions without code. -/
theorem Consistent.answered (h : s.Consistent B) (hmain : s.target = Program.mainId)
    {s' : Session} {P : Program} {is : List Command} {a : Function}
    (hP : s.clearAnswer.program.Extends Program.answerId is P) (ha : a.Settled B)
    (hname : a.name = P.answer.name)
    (hprogram : s'.program = P.modifyFunction (fun _ => a) Program.answerId)
    (houtline : s'.outline = s.outline) (hcheckpoint : s'.checkpoint = s.checkpoint)
    (hoperators : s'.operators = []) : s'.Consistent B := by
  obtain ⟨f, hf⟩ := h.writing
  have htarget : s'.target = Program.mainId := (congrArg Outline.target houtline).trans hmain
  have hexits : s'.exits = s.exits := congrArg Outline.exits houtline
  have hold (i : Nat) (hi : i ≠ Program.answerId) :
      s.clearAnswer.program.function? i = s.program.function? i :=
    Program.function?_answer _ _ hi
  have hnew (i : Nat) (hi : i ≠ Program.answerId) : s'.program.function? i = P.function? i := by
    rw [hprogram, Program.function?_answer _ _ hi]
  have hne : Program.mainId ≠ Program.answerId := by decide
  have hPmain : P.main = s.program.main := by
    have hkept := hP.others Program.mainId s.program.main hne rfl
    exact Option.some.inj hkept
  refine ⟨⟨f, ?_⟩, houtline ▸ h.balanced, fun hne => absurd htarget hne⟩
  exact {
    function := by
      have hfun := hf.function
      rw [hmain] at hfun
      rw [htarget, hnew _ hne]
      exact hP.others _ _ hne (hold _ hne ▸ hfun)
    code := hf.code
    known := hf.known
    pending := hexits ▸ hf.pending
    sorted := hexits ▸ hf.sorted
    others := fun i g hi hg => by
      by_cases hanswer : i = Program.answerId
      · rw [hprogram, hanswer, Program.function?_put rfl hname] at hg
        cases hg
        exact ha
      · rw [hnew i hanswer] at hg
        refine hP.settled hanswer hg fun k hk => ?_
        rw [hold i hanswer] at hk
        exact hf.others i k (hmain ▸ htarget ▸ hi) hk
    anchored := by
      rw [hprogram, hcheckpoint]
      exact hPmain ▸ hf.anchored
    names := by
      have hnames := hP.names (P := s.clearAnswer.program) hf.names
      rw [hprogram]
      exact hnames
    operators := hoperators }

/-- The session in which an answer is compiled. -/
abbrev reading (s : Session) : Session := { s.clearAnswer with target := Program.answerId }

/-- What an answer comes to. A refusal is the only failure. -/
theorem compileAnswer_cases (s : Session) (text : String) :
    ∃ u is q, (Pass.start s.reading text).Progress u is q ∧
      (Compile.answer (Pass.start s.reading text) = .ok () q ∧
          s.compileAnswer text = (.ok (), { q.toSession with target := Program.mainId }) ∨
        ∃ d, Compile.answer (Pass.start s.reading text) = .error (.refused d) q ∧
          s.compileAnswer text = (.error (.refused d),
            { q.toSession.clearAnswer with operators := [], target := Program.mainId })) := by
  have hanswer := Compile.answer_sound (inOrder_start (s := s.reading) rfl text) (by simp [Pass.start])
  cases hm : Compile.answer (Pass.start s.reading text) with
  | ok _ q =>
    obtain ⟨u, is, hq, -⟩ := hanswer.ok hm
    exact ⟨u, is, q, hq, .inl ⟨rfl, by simp only [compileAnswer, run, hm]⟩⟩
  | error e q =>
    obtain ⟨⟨d, rfl⟩, u, is, hq⟩ := hanswer.error hm
    exact ⟨u, is, q, hq, .inr ⟨d, rfl, by simp only [compileAnswer, run, hm]⟩⟩

/-- **Compiling an answer** outside all definitions. -/
theorem consistent_compileAnswer (h : s.Consistent B) (hmain : s.target = Program.mainId)
    (text : String) (hshort : B → text.toList.length < wordBound) :
    (s.compileAnswer text).2.Consistent B := by
  obtain ⟨f, hf⟩ := h.writing
  obtain ⟨u, is, q, hq, ⟨hm, heq⟩ | ⟨d, -, heq⟩⟩ := compileAnswer_cases s text <;> rw [heq]
  · have hstart := Compile.answer_sound (inOrder_start (s := s.reading) rfl text)
      (by simp [Pass.start])
    obtain ⟨u, is, hq, ho, -, hrun⟩ := hstart.ok hm
    obtain ⟨g, c, hg, hc, hanswer⟩ := hq.program.written
    have hcleared : s.program.answer.clear = g := Option.some.inj hg
    have hsame : q.program.answer = { g with code := c } := Option.some.inj hanswer
    have hset : q.program.answer.Settled B := by
      rw [hsame, ← hcleared]
      rw [← hcleared] at hc
      refine ⟨Code.leaves_empty.writes hc fun hB => hrun ?_, ?_⟩
      · exact Nat.le_trans (length_readTokens_le _ text) (hshort hB)
      · intro i l hl
        simp [Function.clear, LabelTable.get?] at hl
    refine h.answered hmain hq.program hset rfl rfl ?_ hq.checkpoint (ho.trans hf.operators)
    simp only [outline, hq.blocks, hq.exits, hq.continues, hmain]
    rfl
  · have hset : q.program.answer.clear.Settled B := Function.settled_of_empty rfl rfl
    refine h.answered hmain hq.program hset rfl rfl ?_ hq.checkpoint rfl
    simp only [outline, clearAnswer, hq.blocks, hq.exits, hq.continues, hmain]
    rfl

end Session

end DeskCalc
