import DeskCalc.Proofs.Operands.Statements
import DeskCalc.Proofs.Returns
import DeskCalc.Proofs.Sessions

/-!
# Statements write the returns that a function may have

Labels, headers, jumps and declarations leave alone which blocks are open and which function receives
code; bodies and definitions do not, but they keep the two in step. A return is written by `return`,
inside a function, and where the body of a function is closed.
-/

namespace DeskCalc

namespace Compile

open Pass

variable {B : Prop} {α : Type} {p : Pass}

/-! ## Bodies -/

instance shifts_orderly : Shifts (orderly B).parts where
  shift {change} hshift := by
    have hchange {s : BlockStack} {target : Nat} (h : s.Fenced B target) :
        (change s).Fenced B target := by
      cases hshift with
      | push b hbody hinside hformed => exact h.push (hbody _) (hinside _) (hformed _)
      | pop => exact h.pop
      | top f hbody hinside hbrace hformed => exact h.modifyTop hinside hbody hbrace hformed
    exact (orderly B).fine fun _ hp =>
      ⟨⟨⟨hp.named, hp.function, hp.lawful.congr rfl, hchange hp.fenced⟩, hp.home⟩, trivial⟩

/-- A return that has a value or not as the function wants it, where code goes to a function. -/
theorem unmovedAt_emitReturn (h : p.Tidy B) {op : Opcode} (hop : op.operandCount = 0)
    (htarget : p.target ≠ Program.mainId)
    (hvoid : ∀ f, p.program.function? p.target = some f → (op = .retVoid ↔ f.isVoid = true)) :
    UnmovedAt B (emit op) p :=
  unmovedAt_emitWith h (show ([] : List Nat).length = _ from hop.symm) fun f hf _ =>
    ⟨htarget, hvoid f hf⟩

/-- The return without a value: of nothing, or of zero. -/
theorem unmovedAt_emitEmpty (h : p.Tidy B) (htarget : p.target ≠ Program.mainId) {f : Function}
    (hf : p.program.function? p.target = some f) :
    UnmovedAt B (emit (if f.isVoid then .retVoid else .ret0)) p := by
  refine unmovedAt_emitReturn h (by split <;> rfl) htarget fun g hg => ?_
  cases hf.symm.trans hg
  cases f.isVoid <;> simp

/-- Where the body of a function ends code goes to the main program again. -/
instance orderly_closeInnermost (braced : Bool) : Fine (orderly B).parts (closeInnermost braced) := by
  refine fine_closeInnermost braced fun p h hbody => ?_
  have htarget := h.fenced.target p.blocks.top List.mem_cons_self (.inr hbody)
  refine (orderly B).function h fun f hf => ?_
  refine Ensures.bind ((unmovedAt_emitEmpty h.toTidy htarget hf).orderly h) ?_ fun _ _ => id
  rintro - q ⟨hq, hscene⟩
  have hblocks : q.blocks = p.blocks := congrArg (fun s => s.2.2) hscene
  exact ⟨⟨⟨hq.named, ⟨_, rfl⟩, hq.lawful.congr rfl, hq.fenced.leave (hblocks ▸ hbody) _⟩, nofun⟩,
    trivial⟩

theorem accepts_of_forall {m : Compile α} {Q : α → Pass → Prop} (h : ∀ a q, Q a q) : Accepts m p Q :=
  (ensures_self m).mono (fun a q _ => h a q) fun _ _ _ => trivial

/-- Everything is closed where `closeAll` says so. -/
theorem closeAll_idle : Accepts closeAll p fun all q => all = true → q.blocks.isIdle = true := by
  simp only [closeAll, Accepts, ensures_bind, ensures_get, ensures_ite, ensures_pure]
  split
  · next hidle => exact fun _ => hidle
  split
  · rintro ⟨⟩
  refine accepts_iterate (fun _ _ => True) (fun _ p _ => ?_) _ () p trivial
  simp only [Accepts, closeAllStep, closeAllBody, ensures_bind, ensures_get, ensures_ite,
    ensures_pure]
  split
  · -- A round that closes something asks for another one, or says that it did not get on.
    have hround (q : Pass) : if p.blocks.depth > 1 then
        Accepts (endBody false) q fun _ r =>
          if r.blocks.depth ≥ p.blocks.depth then false = true → r.blocks.isIdle = true else True
        else True := by
      split
      · exact accepts_of_forall fun _ r => by split <;> simp
      · trivial
    split
    · exact accepts_of_forall fun _ q => hround q
    · exact hround p
  · exact id

/-! ## Returns -/

/-- A `return` fits the function it stands in: whatever is compiled between the word and the end of
its value, code goes to the same function. -/
instance orderly_returnValue : Fine (orderly B).parts returnValue := by
  refine (orderly B).fine fun p h => ?_
  change p.Orderly B at h
  simp only [Keeping.Keeps, returnValue, ensures_bind, ensures_topBlock, ensures_ite,
    ensures_refuseHere]
  split
  · next hinside =>
    have htarget := h.fenced.target p.blocks.top List.mem_cons_self (.inl hinside)
    obtain ⟨f, hf⟩ := h.function
    have hsame {q : Pass} (hscene : q.scene = p.scene) : q.target ≠ Program.mainId ∧
        ∀ g, q.program.function? q.target = some g → g.isVoid = f.isVoid := by
      have hq : q.target = p.target := congrArg Prod.fst hscene
      refine ⟨hq ▸ htarget, fun g hg => ?_⟩
      have hvoid := congrArg (fun s => s.2.1) hscene
      simpa only [scene, hg, hf, Option.map_some, Option.some.injEq] using hvoid
    have hempty {q : Pass} (hq : q.Orderly B) (hscene : q.scene = p.scene) :
        (orderly B).Keeps (emit (if f.isVoid then .retVoid else .ret0)) q := by
      obtain ⟨g, hg⟩ := hq.function
      rw [← (hsame hscene).2 g hg]
      have hemit := (unmovedAt_emitEmpty hq.toTidy (hsame hscene).1 hg).orderly hq
      exact hemit.imp fun _ _ hq => ⟨hq.1, trivial⟩
    have hvalue {q : Pass} (hq : q.Orderly B) (hscene : q.scene = p.scene)
        (hvoid : ¬f.isVoid = true) : (orderly B).Keeps (emit .ret) q := by
      have hemit : UnmovedAt B (emit .ret) q := by
        refine unmovedAt_emitReturn hq.toTidy rfl (hsame hscene).1 fun g hg => ?_
        rw [(hsame hscene).2 g hg]
        exact iff_of_false (by nofun) hvoid
      exact (hemit.orderly hq).imp fun _ _ hq => ⟨hq.1, trivial⟩
    simp only [function, ensures_bind, ensures_get, hf, ensures_pure, ensures_here]
    refine (UnmovedAt.orderly ((unmoved B).advance h.toTidy) h).imp ?_
    rintro - q ⟨hq, hscene⟩
    rw [ensures_isAt, ensures_atDelimiter]
    split
    · exact hempty hq hscene
    · refine (UnmovedAt.orderly ((unmoved B).keeps hq.toTidy) hq).imp ?_
      rintro outcome r ⟨hr, hscene'⟩
      have hscene := hscene'.trans hscene
      cases outcome with
      | empty => exact hempty hr hscene
      | value =>
        obtain ⟨g, hg⟩ := hr.function
        simp only [returned, ensures_bind, ensures_function hg, ensures_get, ensures_ite]
        split
        · exact hr.upright
        · next hvoid =>
          rw [(hsame hscene).2 g hg] at hvoid
          split
          · exact hvalue hr hscene hvoid
          · refine (UnmovedAt.orderly ((unmoved B).report hr.toTidy _ trivial) hr).imp ?_
            exact fun _ r' hr' => hvalue hr'.1 (hr'.2.trans hscene) hvoid
  · exact h.upright

/-! ## Definitions -/

theorem unmoved_declareLocal {t : Token} (hname : IsName t.text) (kind : LocalKind) :
    Fine (unmoved B).parts (declareLocal t kind) :=
  (unmoved B).declareLocal hname trivial fun _ _ _ h _ hf _ => unmovedAt_putFunction h hf rfl id

/-- A change of the function that receives code, but neither of its code nor of its signature. -/
theorem unmoved_modifyFunction {change : Function → Function}
    (hvoid : ∀ f, (change f).isVoid = f.isVoid) (hcode : ∀ f, (change f).code = f.code) :
    Fine (unmoved B).parts (modifyFunction change) :=
  (unmoved B).fine fun _ h => unmovedAt_modifyFunction h (fun f _ => hvoid f)
    fun f _ hf => by rwa [Function.Abides, hcode, hvoid]

instance declares_unmoved : Declares (unmoved B).parts where
  declare ht _ hname kind := by
    cases ht.1
    exact unmoved_declareLocal hname kind
  count := unmoved_modifyFunction (fun _ => rfl) fun _ => rfl

instance declares_orderly : Declares (orderly B).parts where
  declare ht _ hname kind := by
    cases ht.1
    exact orderly_of_unmoved (unmoved_declareLocal hname kind)
  count := orderly_of_unmoved declares_unmoved.count

/-- A function begins anew where nothing is open. -/
theorem orderly_begin (isVoid : Bool) {t : Token} {id : Nat} {P : Program} (h : p.Orderly B)
    (hidle : p.blocks.isIdle = true) (hname : IsName t.text)
    (hid : p.program.internFunction t.text t.span = .ok (id, P)) :
    Ensures (modifyFunction fun f => { f.clear with isVoid := isVoid })
      { p with program := P, target := id }
      (fun _ q => q.Orderly B ∧ q.target = id ∧ q.blocks = {}) (fun _ q => q.toSession.Upright) ∧
      id ≠ Program.mainId := by
  obtain ⟨hP, g, hg, hgname⟩ := TableEntry.extends_enter (e := .function t.text) hid
  have hlawful := h.lawful.enter hP
  have hmain : id ≠ Program.mainId := by
    rintro rfl
    cases hg
    exact hname.ne.1 (hgname.symm.trans hlawful.names.1)
  have hanswer : id ≠ Program.answerId := by
    rintro rfl
    cases hg
    exact hname.ne.2 (hgname.symm.trans hlawful.names.2)
  have hblocks := BlockStack.eq_of_isIdle hidle
  refine ⟨?_, hmain⟩
  simp only [modifyFunction, ensures_bind, ensures_get, ensures_ite, ensures_set, ensures_throw]
  split
  · refine ⟨⟨⟨h.named, ?_, ?_, ?_⟩, hanswer⟩, trivial, hblocks⟩
    · exact ⟨_, by rw [Program.function?_modifyFunction, if_pos rfl, hg]; rfl⟩
    · exact hlawful.modifyFunction (fun f => { f.clear with isVoid := isVoid }) rfl
        fun _ _ _ => Function.abides_of_empty rfl _
    · rw [hblocks]
      exact BlockStack.fenced_empty _
  · exact ⟨hlawful.congr rfl, hanswer⟩

/-- The header of a function, where nothing is open. Behind it the body is awaited. -/
theorem define_header (h : p.Orderly True) (hidle : p.blocks.isIdle = true) :
    Ensures define p (fun _ q => q.Orderly True ∧ q.blocks = BlockStack.header)
      fun _ q => q.toSession.Upright := by
  have hdefined : Fine (unmoved True).parts (modifyFunction fun f => { f with defined := true }) :=
    unmoved_modifyFunction (fun _ => rfl) fun _ => rfl
  have hbehind : Fine (unmoved True).parts (do
      modifyFunction fun f => { f with defined := true }
      advance
      if ← isAt (.symbol .leftBrace) then pure () else report .braceOnNewLine (← here)) :=
    inferInstance
  simp only [define, openFunction, ensures_bind, ensures_isAt, ensures_ite]
  refine (UnmovedAt.orderly ((unmoved True).advance h.toTidy) h).imp ?_
  rintro - q ⟨hq, hscene⟩
  have hname := UnmovedAt.orderly ((unmoved True).keeps (m := functionName) hq.toTidy) hq
  refine (hname.and ((unmoved True).functionName_fit hq.toTidy)).mono ?_ fun _ _ => And.left
  rintro ⟨t, isVoid⟩ r ⟨⟨hr, hscene'⟩, hname⟩
  have hblocks : r.blocks = p.blocks := congrArg (fun s => s.2.2) (hscene'.trans hscene)
  split
  · simp only [intern, ensures_bind, ensures_get]
    cases hid : r.program.internFunction t.text t.span with
    | error d => exact hr.upright
    | ok found =>
      obtain ⟨index, P⟩ := found
      obtain ⟨hbegin, hmain⟩ := orderly_begin isVoid hr (hblocks ▸ hidle) hname hid
      refine hbegin.imp ?_
      rintro - q' ⟨hq', htarget, hopen⟩
      refine (UnmovedAt.orderly ((unmoved True).advance hq'.toTidy) hq').imp ?_
      rintro - r' ⟨hr', hscene⟩
      refine (UnmovedAt.orderly ((unmoved True).keeps hr'.toTidy) hr').imp ?_
      rintro - s ⟨hs, hscene'⟩
      have hscene := hscene'.trans hscene
      have hsblocks : s.blocks = {} := (congrArg (fun s => s.2.2) hscene).trans hopen
      have hstarget : s.target = index := (congrArg Prod.fst hscene).trans htarget
      have hopened : Pass.Orderly True { s with blocks := BlockStack.header } := by
        refine ⟨⟨hs.named, hs.function, hs.lawful.congr rfl, ?_⟩, hs.home⟩
        rw [hstarget]
        exact BlockStack.fenced_function hmain rfl
      simp only [openBody, modifyBlocks, ensures_modify, hsblocks]
      have hend := UnmovedAt.orderly ((unmoved True).keeps hopened.toTidy (h := hbehind)) hopened
      have hkept := hend.imp fun _ q hq => And.intro hq.1 (congrArg (fun s => s.2.2) hq.2)
      simp only [ensures_bind, ensures_isAt, ensures_ite] at hkept
      exact hkept
  · exact hr.upright

/-! ## Items -/

theorem closeAll_orderly (h : p.Orderly B) :
    Ensures closeAll p (fun all q => q.Orderly B ∧ (all = true → q.blocks.isIdle = true))
      fun _ q => q.toSession.Upright :=
  (Ensures.and ((orderly B).keeps h) closeAll_idle).mono (fun _ _ hq => ⟨hq.1.1, hq.2⟩)
    fun _ _ => And.left

/-- Between the header of a function and its brace there may be line feeds. -/
theorem innerStatement_header (h : p.Prompt) (hp : p.blocks = BlockStack.header)
    (hk : p.token.kind = .newline ∨ p.token.kind = .keyword .autoDecl ∨
      p.token.kind = .keyword .elseBranch) : prompt.Keeps innerStatement p := by
  simp only [Keeping.Keeps, innerStatement, innerFrom, ensures_bind, ensures_kind]
  rcases hk with hk | hk | hk <;> simp only [hk]
  · exact prompt.advance h
  · obtain ⟨B, hB, of⟩ := exists_unmoved h
    exact of ((unmoved B).keeps hB)
  · -- No `if` has ended here, so that the `else` is refused.
    have hstarts : Token.Kind.startsExpression (.keyword .elseBranch) = false := rfl
    have hended : BlockStack.header.top.ifEnded = false := rfl
    simp only [forbidAuto, plainStatement, plainFrom, statementHead, elseBranch, ensures_bind,
      ensures_modify, ensures_kind, hk, ensures_get, ensures_ite, ensures_topBlock, hp, hstarts, hended,
      Bool.false_eq_true, if_false, ensures_refuseHere]
    exact ⟨h.lawful.congr rfl, h.home⟩

/-- Behind the header of a function only its brace begins the body. -/
theorem statement_header (h : p.Prompt) (hp : p.blocks = BlockStack.header) :
    prompt.Keeps statement p := by
  have htop : p.blocks.top = { funcBody := true, inFunc := true, awaited := true } := by
    rw [hp]
    rfl
  have hbody : Fine (orderly False).parts (do
      advance
      body true) := inferInstance
  simp only [Keeping.Keeps, statement, statementFrom, ensures_bind, ensures_kind, ensures_topBlock,
    ensures_ite, htop, Bool.false_eq_true, or_false, Bool.true_and, Bool.not_false, if_true]
  split
  · next hk => exact innerStatement_header h hp hk
  split
  · simp only [forbidAuto, modifyBlocks, ensures_modify]
    have hbegun : Pass.Orderly False { p with
        autoAllowed := false, blocks := p.blocks.modifyTop ({ · with brace := true }) } := by
      refine ⟨⟨h.named, h.function, h.lawful.congr rfl, ?_⟩, h.home⟩
      have hfenced := h.fenced.modifyTop (f := ({ · with brace := true })) (fun _ => rfl)
        (fun _ => rfl) (fun _ _ => rfl) fun _ _ => rfl
      refine hfenced.begin fun b hb hfunc => ?_
      rw [hp] at hb
      rcases List.mem_cons.1 hb with rfl | hb
      · rfl
      · cases List.mem_singleton.1 hb
        cases hfunc
    have hok := Ensures.mono ((orderly False).keeps hbegun (h := hbody))
      (fun _ _ hq => And.intro hq.1.prompt trivial) fun _ _ => id
    exact (ensures_bind ..).1 hok
  · simp only [forbidAuto, body, modifyBlocks, ensures_bind, ensures_modify, ensures_topBlock,
      ensures_ite, BlockStack.modifyTop, htop, if_true, Bool.false_eq_true, if_false]
    exact ensures_unexpected fun _ => ⟨h.lawful.congr rfl, h.home⟩

instance prompt_statement : Fine prompt.parts statement := by
  refine prompt.fine fun p h => ?_
  rcases Pass.Prompt.prompt h with hbegun | hheader
  · have hok := (orderly False).keeps (m := statement) (h.toOrderly.begin hbegun)
    exact Ensures.mono hok (fun _ _ hq => ⟨hq.1.prompt, trivial⟩) fun _ _ => id
  · exact statement_header h hheader

/-- What `closeAll` has closed may be followed by something. -/
theorem prompt_closeAll {m : Compile α} (h : p.Prompt)
    (hm : ∀ q, q.Orderly True → q.blocks.isIdle = true → prompt.Keeps m q) (cause : Cause) :
    prompt.Keeps (closeAll >>= fun all => if all then m else refuseHere cause) p := by
  refine (closeAll_orderly h.toOrderly).bind ?_ fun _ _ => id
  rintro all q ⟨hq, hidle⟩
  cases all with
  | true => exact hm q hq (hidle rfl)
  | false => exact hq.upright

/-- **Items.** A definition begins where nothing is open, and it may first close what it can. -/
instance prompt_item : Fine prompt.parts item := by
  refine prompt.fine fun p h => ?_
  have hdefine (q : Pass) (hq : q.Orderly True) (hidle : q.blocks.isIdle = true) :
      prompt.Keeps define q :=
    (define_header hq hidle).imp fun _ _ hr => ⟨⟨hr.1, .inr hr.2⟩, trivial⟩
  simp only [Keeping.Keeps, item, ensures_bind, ensures_isAt, ensures_ite, ensures_get]
  split
  · split
    · next hidle => exact hdefine p h.toOrderly hidle
    · simpa only [Keeping.Keeps, ensures_bind, ensures_ite] using prompt_closeAll h hdefine _
  · exact prompt.keeps h

instance prompt_inputEnd : Fine prompt.parts inputEnd := by
  have hclose : Fine prompt.parts (closeAll >>= fun all =>
      if all then pure () else refuseHere .blockEnd : Compile Unit) := by
    refine prompt.fine fun p h => prompt_closeAll h (fun q hq hidle => ?_) _
    refine ⟨⟨hq, .inl fun b hb hbody => ?_⟩, trivial⟩
    rw [BlockStack.eq_of_isIdle hidle] at hb
    cases List.mem_singleton.1 hb
    cases hbody
  unfold inputEnd
  infer_instance

end Compile

end DeskCalc
