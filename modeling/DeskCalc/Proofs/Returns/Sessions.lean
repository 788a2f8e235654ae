import DeskCalc.Proofs.Operands.Sessions
import DeskCalc.Proofs.Redefinition
import DeskCalc.Proofs.Returns.Statements

/-!
# The returns of every session

In a session that comes out of a new one by calls, a function has only returns of its own kind, a
function that has been defined to its end returns there, and what has no definition is empty
(`Session.leads_returns`). The second is known of functions that received no code
(`Session.Furnished`). For the others the calls are followed one by one (`Session.Regular`): a chunk
that is refused may have been in the middle of a function, whose code is then thrown away.
-/

namespace DeskCalc

/-- Cut at the checkpoint, the main code has fewer instructions. -/
theorem Function.Abides.cut {B : Prop} {f : Function} {id : Nat} {c : Checkpoint}
    (h : f.Abides id) (hf : f.Anchored B c) : (f.cut c).Abides id := by
  obtain ⟨d, js, ⟨is, his, -⟩, hjs, hsize, -⟩ := hf
  have hcode : (f.cut c).code = d := by
    rw [Function.cut, ← hsize]
    exact his.truncate_eq hjs
  have hd := Code.Only.before h his hjs
  rwa [Abides, hcode]

namespace Session

variable {s t : Session} {m : Function} {texts : String → Prop} {c : Call}

/-- What every call keeps: all functions abide, and what has no definition is empty. The open blocks fit
the function that receives code. -/
structure Regular (s : Session) : Prop extends Upright s where
  fenced : s.blocks.Fenced True s.target
  prompt : s.blocks.Prompt
  defined : s.program.main.defined = true ∧ s.program.answer.defined = true
  blank : ∀ id f, s.program.function? id = some f → f.defined = false → f = { name := f.name }

/-! ## Going back -/

theorem upright_reset (h : s.Lawful) (hrec : Recoverable False s) : s.reset.Upright := by
  have habandon : s.abandonDefinition.Lawful := by
    unfold abandonDefinition
    split
    · exact h
    · exact h.modifyFunction (fun f => { f.clear with defined := false }) rfl
        fun _ _ _ => Function.abides_of_empty rfl _
  have hmain : s.abandonDefinition.program.main = s.program.main :=
    (abandonDefinition_settled hrec).1
  have hcut : s.reset.program =
      s.abandonDefinition.program.modifyFunction (·.cut s.reset.checkpoint) Program.mainId := rfl
  refine ⟨habandon.modifyFunction _ hcut fun f hf habides => ?_, ?_⟩
  · cases hf
    rw [checkpoint_reset]
    exact habides.cut (hmain ▸ hrec.anchored)
  · rw [target_reset]
    decide

/-- What is left after going back, if all but the function that received code was in order. -/
theorem regular_reset (h : s.Upright) (hrec : Recoverable False s)
    (hdefined : s.program.main.defined = true ∧ s.program.answer.defined = true)
    (hblank : ∀ id f, id ≠ s.target → s.program.function? id = some f → f.defined = false →
      f = { name := f.name }) : s.reset.Regular := by
  have hmain : s.reset.program.main.defined = true := by
    rw [main_reset_eq_cut]
    exact hdefined.1
  have hanswer : s.reset.program.answer.defined = true := by
    have hsame := function?_reset s (i := Program.answerId) (by decide)
    rw [if_neg h.home.symm] at hsame
    rw [Option.some.inj hsame]
    exact hdefined.2
  have hfenced : s.reset.blocks.Fenced False s.reset.target := BlockStack.fenced_empty _
  refine ⟨upright_reset h.toLawful hrec, hfenced.mono, .inl hfenced.brace, ⟨hmain, hanswer⟩, ?_⟩
  intro id f hf hnot
  by_cases hid : id = Program.mainId
  · subst hid
    cases hf
    rw [hmain] at hnot
    cases hnot
  · rw [function?_reset s hid] at hf
    split at hf
    · obtain ⟨g, -, rfl⟩ := Option.map_eq_some_iff.1 hf
      rfl
    · next htarget => exact hblank id f htarget hf hnot

/-! ## Chunks -/

section Furthers

variable (h : s.Regular) (hst : s.draft.Furthers t.draft)
include h hst

/-- A chunk loses no definition, of the main code and of the answer neither. -/
theorem defined_of_furthers : t.program.main.defined = true ∧ t.program.answer.defined = true := by
  obtain ⟨g, hg, hmain⟩ := hst.defined Program.mainId _ rfl h.defined.1
  obtain ⟨k, hk, hanswer⟩ := hst.defined Program.answerId _ rfl h.defined.2
  cases hg
  cases hk
  exact ⟨hmain, hanswer⟩

/-- What has no definition and received no code is empty behind a chunk. -/
theorem blank_of_furthers (id : Nat) (f : Function) (htarget : id ≠ t.target)
    (hf : t.program.function? id = some f) (hnot : f.defined = false) : f = { name := f.name } := by
  by_cases hid : id = Program.mainId
  · subst hid
    cases hf
    rw [(defined_of_furthers h hst).1] at hnot
    cases hnot
  · rcases hst.retains.others id f hid htarget hf with ⟨-, hsame⟩ | ⟨hreturns, -⟩ | ⟨-, hempty⟩
    · exact h.blank id f hsame hnot
    · rw [hreturns.1] at hnot
      cases hnot
    · exact hempty

/-- The function that receives code has a definition behind a chunk. -/
theorem regular_of_furthers (hupright : t.Upright) (hfenced : t.blocks.Fenced True t.target)
    (hprompt : t.blocks.Prompt) (hdeclared : t.draft.Declared) : t.Regular := by
  refine ⟨hupright, hfenced, hprompt, defined_of_furthers h hst, fun id f hf hnot => ?_⟩
  by_cases htarget : id = t.target
  · subst htarget
    by_cases hmain : t.target = Program.mainId
    · rw [hmain] at hf
      cases hf
      rw [(defined_of_furthers h hst).1] at hnot
      cases hnot
    · obtain ⟨g, hg, hdefined⟩ := hdeclared hmain
      cases (show t.program.function? t.target = some g from hg).symm.trans hf
      rw [hdefined] at hnot
      cases hnot
  · exact blank_of_furthers h hst id f htarget hf hnot

end Furthers

theorem Regular.start (h : s.Regular) (hs : s.Consistent False) (text : String) :
    (Pass.start s text).Prompt := by
  obtain ⟨f, hf⟩ := hs.writing
  exact ⟨⟨⟨named_start s text, ⟨f, hf.function⟩, h.toLawful, h.fenced⟩, h.home⟩, h.prompt⟩

theorem regular_compile (h : s.Regular) (hs : s.Tracks m) (text : String) :
    (s.compile text).2.Regular := by
  have horderly := Compile.prompt.keeps (m := Compile.chunk) (h.start hs.consistent text)
  have hfurthers := chunk_furthers hs text
  have hdeclared := (tracks_compile hs text).1.consistent.declared
  rcases compile_cases hs.consistent False.elim with ⟨status, q, hq, heq⟩ | ⟨d, q, hq, hrec, heq⟩ <;>
    rw [heq] at hdeclared ⊢
  · have hok := (horderly.ok hq).1
    exact regular_of_furthers h (hfurthers.ok hq) hok.upright hok.fenced hok.prompt hdeclared
  · have hst := hfurthers.error hq ⟨d, rfl⟩
    exact regular_reset (horderly.error hq) hrec (defined_of_furthers h hst)
      (blank_of_furthers h hst)

theorem Regular.commit (h : s.Regular) : s.commit.Regular := by
  unfold Session.commit
  split
  · exact ⟨⟨h.toLawful.congr rfl, h.home⟩, h.fenced, h.prompt, h.defined, h.blank⟩
  · exact h

theorem regular_finish (h : s.Regular) (hs : s.Tracks m) : s.finish.2.Regular := by
  have hstart : (Pass.start s "").token.kind ≠ .eof := by simp [Pass.start]
  have horderly := Compile.prompt.keeps (m := Compile.inputEnd) (h.start hs.consistent "")
  have hfurthers := inputEnd_furthers hs
  rcases finish_cases hs.consistent with ⟨q, hm, heq⟩ | ⟨d, q, hm, hrec, heq⟩ <;> rw [heq]
  · have hok := (horderly.ok hm).1
    have hholds := Compile.inputEnd_holds (hs.steady "") hstart
    have hdeclared := (hholds.ok hm).1.consistent.declared
    have ht := regular_of_furthers h (hfurthers.ok hm) hok.upright hok.fenced hok.prompt hdeclared
    exact ht.commit
  · have hst := hfurthers.error hm ⟨d, rfl⟩
    exact regular_reset (horderly.error hm) hrec (defined_of_furthers h hst)
      (blank_of_furthers h hst)

/-! ## Answers -/

theorem lawful_clearAnswer (h : s.Lawful) : s.clearAnswer.Lawful :=
  h.modifyFunction (t := s.clearAnswer) Function.clear
    (show s.clearAnswer.program = s.program.modifyFunction _ Program.answerId from rfl)
    fun _ _ _ => Function.abides_of_empty rfl _

end Session

/-- An answer returns its value, and its function has one. -/
theorem Compile.answer_lawful {p : Pass} (h : p.Tidy True) (htarget : p.target = Program.answerId)
    (hvoid : p.program.answer.isVoid = false) :
    Ensures answer p (fun _ q => q.toSession.Lawful) fun _ q => q.toSession.Lawful := by
  have hread := (unmoved True).keeps (m := do
    advance
    expression { answer := true, needsValue := true } Ends.answer) h
  simp only [Keeping.Keeps, answer, ensures_bind] at hread ⊢
  refine hread.mono (fun _ q hq => hq.mono ?_ fun _ _ => And.left) fun _ _ => And.left
  rintro - r ⟨hr, hscene⟩
  have hanswer : p.program.function? p.target = some p.program.answer := by
    rw [htarget]
    rfl
  have hrtarget : r.target ≠ Program.mainId := by
    rw [show r.target = p.target from congrArg Prod.fst hscene, htarget]
    decide
  have hemit : UnmovedAt True (emit .ret) r := by
    refine unmovedAt_emitReturn hr rfl hrtarget fun f hf => ?_
    have hsame := congrArg (fun s => s.2.1) hscene
    simp only [Pass.scene, hf, hanswer, Option.map_some, hvoid, Option.some.injEq] at hsame
    simp [hsame]
  exact hemit.mono (fun _ _ hq => hq.1.lawful) fun _ _ => And.left

namespace Session

variable {s t : Session} {m : Function} {texts : String → Prop} {c : Call}

theorem lawful_compileAnswer (h : s.Regular) (text : String) : (s.compileAnswer text).2.Lawful := by
  have hclear := lawful_clearAnswer h.toLawful
  have hstart : (Pass.start s.reading text).Tidy True := by
    refine ⟨named_start _ text, ⟨_, rfl⟩, hclear.congr rfl, ?_⟩
    exact { h.fenced with target := fun _ _ _ => nofun }
  have hlawful := Compile.answer_lawful hstart rfl rfl
  obtain ⟨u, is, q, -, ⟨hq, heq⟩ | ⟨d, hq, heq⟩⟩ := compileAnswer_cases s text <;> rw [heq]
  · exact (hlawful.ok hq).congr rfl
  · exact (lawful_clearAnswer (hlawful.error hq)).congr rfl

theorem regular_compileAnswer (h : s.Regular) (hmain : s.target = Program.mainId) (text : String) :
    (s.compileAnswer text).2.Regular := by
  have hkept := undisturbed_compileAnswer s text
  have htarget := (main_compileAnswer s text).2.2
  obtain ⟨is, Q, a, hQ, hprogram, ha⟩ := program_compileAnswer s text
  have hanswer : (s.compileAnswer text).2.program.answer.defined = true := by
    obtain ⟨f, c, hf, -, hQf⟩ := hQ.written
    cases hf
    have hdefined : Q.answer.defined = true := by
      rw [Option.some.inj hQf]
      exact h.defined.2
    rw [hprogram]
    rcases ha with rfl | rfl
    · exact hdefined
    · exact hdefined
  refine ⟨⟨lawful_compileAnswer h text, htarget ▸ nofun⟩, ?_, hkept.blocks ▸ h.prompt, ⟨?_, hanswer⟩,
    fun id f hf hnot => ?_⟩
  · rw [hkept.blocks, htarget, ← hmain]
    exact h.fenced
  · rw [(main_compileAnswer s text).1]
    exact h.defined.1
  · by_cases hid : id = Program.answerId
    · subst hid
      cases hf
      rw [hanswer] at hnot
      cases hnot
    · cases hk : s.program.function? id with
      | none => exact hkept.fresh id f hk hf
      | some k =>
        cases (hkept.functions id k hid hk).symm.trans hf
        exact h.blank id f hk hnot

/-- **Every call keeps the returns in order.** -/
theorem regular_call (h : s.Regular) (hs : s.Tracks m) (hc : c.Allowed texts s) :
    (c.run s).2.Regular := by
  cases c with
  | compile text => exact regular_compile h hs text
  | finish => exact regular_finish h hs
  | reset =>
    exact regular_reset h.toUpright hs.consistent.recoverable h.defined fun id f _ => h.blank id f
  | takeWarnings =>
    exact ⟨⟨h.toLawful.congr rfl, h.home⟩, h.fenced, h.prompt, h.defined, h.blank⟩
  | compileAnswer text => exact regular_compileAnswer h hc.2 text

theorem regular_new (options : Options) : (new options).Regular := by
  have hfunction (id : Nat) (f : Function) (hf : (new options).program.function? id = some f) :
      f.code = {} ∧ f.defined = true := by
    rcases id with _ | _ | id
    · cases hf
      exact ⟨rfl, rfl⟩
    · cases hf
      exact ⟨rfl, rfl⟩
    · simp [new, Program.new, Store.new, Program.function?] at hf
  have hfenced : (new options).blocks.Fenced False (new options).target :=
    BlockStack.fenced_empty _
  have hmain : Program.mainId ≠ Program.answerId := by decide
  refine ⟨⟨⟨⟨rfl, rfl⟩, fun id f hf => ?_⟩, hmain⟩, hfenced.mono, .inl hfenced.brace, ⟨rfl, rfl⟩, ?_⟩
  · exact Function.abides_of_empty (hfunction id f hf).1 id
  · intro id f hf hnot
    rw [(hfunction id f hf).2] at hnot
    cases hnot

theorem Leads.history {options : Options} (h : (new options).Leads texts s) :
    ∃ m, s.History texts m := by
  induction h with
  | refl => exact ⟨_, .new options⟩
  | call _ hc ih =>
    obtain ⟨m, hm⟩ := ih
    exact ⟨_, .call hm hc⟩

theorem Leads.regular {options : Options} (h : (new options).Leads texts s) : s.Regular := by
  induction h with
  | refl => exact regular_new options
  | call h hc ih =>
    obtain ⟨m, hm⟩ := h.history
    exact regular_call ih hm.tracks hc

/-! ## The returns of a function -/

/-- **Which returns there are.** A function that has been defined to its end returns there, with a
value or without; no function has returns of the other kind, nor has the main code any; and what has
no definition is empty. This holds of all functions of a session that comes out of a new one by calls,
an answer inside a definition not among them, whatever their outcomes. -/
theorem leads_returns {options : Options} (h : (new options).Leads texts s) {id : Nat} {f : Function}
    (hf : s.program.function? id = some f) :
    (Program.answerId < id → f.defined = true → id ≠ s.target →
      f.code.instructions.getLast?.map (·.op) = some (if f.isVoid then .retVoid else .ret0)) ∧
    (f.isVoid = true → ∀ i ∈ f.code.instructions, i.op ≠ .ret ∧ i.op ≠ .ret0) ∧
    (f.isVoid = false → ∀ i ∈ f.code.instructions, i.op ≠ .retVoid) ∧
    (f.defined = false → f.code = {} ∧ f.labels = {} ∧ f.locals = []) ∧
    (id = Program.mainId → ∀ i ∈ f.code.instructions, i.op.isReturn = false) := by
  obtain ⟨m, hm⟩ := h.history
  have hregular := h.regular
  have habides := (hregular.abides id f hf).good
  refine ⟨fun hid hdefined htarget => ?_, fun hvoid i hi => ?_, fun hvoid i hi hop => ?_,
    fun hnot => ?_, fun hmain i hi => ?_⟩
  · have hmain : id ≠ Program.mainId := Nat.ne_of_gt (Nat.zero_lt_of_lt hid)
    have hset := hm.tracks.consistent.recoverable.others id f htarget hmain hf
    exact (hset.complete (hm.furnished id f hid htarget hf hdefined)).returns.2
  · have hsuits := habides i hi
    refine ⟨fun hop => ?_, fun hop => ?_⟩ <;>
    · rw [hop] at hsuits
      cases (hsuits rfl).2.2 hvoid
  · have hsuits := habides i hi
    rw [hop] at hsuits
    rw [(hsuits rfl).2.1 rfl] at hvoid
    cases hvoid
  · rw [hregular.blank id f hf hnot]
    exact ⟨rfl, rfl, rfl⟩
  · by_contra hreturn
    exact (habides i hi (Bool.eq_true_of_not_eq_false hreturn)).1 hmain

/-- A function without a value that returns in two places, and a function that calls another one. -/
def twoKinds : Call :=
  .compile ("define void v(x) \x7b\nif (x) return\nprint x\n\x7d\n" ++
    "define f(x) \x7b if (x) return (g(x)) \x7d\n")

/-- The second function is defined again, and refused in the middle of its body. -/
def brokenReturn : Call := .compile "define f(y) \x7b return (y)\n return\n )\n"

/-- The session after both. -/
def afterBrokenReturn : Session := (brokenReturn.run (twoKinds.run (new {})).2).2

theorem afterBrokenReturn_returns :
    (new {}).Leads (fun _ => True) afterBrokenReturn ∧
      (∃ v, afterBrokenReturn.program.function? 2 = some v ∧ v.defined = true ∧
        (v.code.instructions.map (·.op)).countP (· == .retVoid) = 2 ∧ v.isVoid = true ∧
        v.code.instructions.getLast?.map (·.op) = some .retVoid ∧
        ∀ i ∈ v.code.instructions, i.op ≠ .ret ∧ i.op ≠ .ret0) ∧
      ∃ f, afterBrokenReturn.program.function? 3 = some f ∧ f.name = "f" ∧ f.defined = false ∧
        f.code = {} ∧ f.labels = {} ∧ f.locals = [] := by
  have hfirst : (new {}).Leads (fun _ => True) (twoKinds.run (new {})).2 :=
    .call .refl (show twoKinds.Allowed _ _ from trivial)
  have hleads : (new {}).Leads (fun _ => True) afterBrokenReturn :=
    .call hfirst (show brokenReturn.Allowed _ _ from trivial)
  have hv : (afterBrokenReturn.program.function? 2).map (fun v => (v.defined,
      (v.code.instructions.map (·.op)).countP (· == .retVoid), v.isVoid)) = some (true, 2, true) ∧
      afterBrokenReturn.target = Program.mainId := by decide +kernel
  have hf : (afterBrokenReturn.program.function? 3).map (fun f => (f.name, f.defined)) =
      some ("f", false) := by decide +kernel
  obtain ⟨⟨v, hv, hvs⟩, htarget⟩ := hv.imp_left Option.map_eq_some_iff.1
  obtain ⟨f, hf, hfs⟩ := Option.map_eq_some_iff.1 hf
  simp only [Prod.mk.injEq] at hvs hfs
  have hreturns := leads_returns hleads hv
  have hlast := hreturns.1 (by decide) hvs.1 (by rw [htarget]; decide)
  rw [if_pos hvs.2.2] at hlast
  exact ⟨hleads, ⟨v, hv, hvs.1, hvs.2.1, hvs.2.2, hlast, hreturns.2.1 hvs.2.2⟩,
    f, hf, hfs.1, hfs.2, (leads_returns hleads hf).2.2.2.1 hfs.2⟩

end Session

end DeskCalc
