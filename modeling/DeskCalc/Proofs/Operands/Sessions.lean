import DeskCalc.Proofs.Operands.Statements

/-!
# The operands of every session

In a session that comes out of a new one by calls, all code can be read to its end, and every
operand stands for something: a constant of the right kind, a name, a function of the source, or a
label (`Session.leads_wellFormed`). For the tables this follows from what every part of the compiler
keeps (`Compile.Safe`). For labels it holds only between statements. A chunk may be refused in the
middle of one, so that the main code up to the checkpoint must have its labels as well
(`Draft.Moored`).
-/

namespace DeskCalc

/-! ## Tables -/

theorem Program.Provided.cut {B : Prop} {P : Program} {f : Function} {c : Checkpoint}
    (h : P.Provided f) (hf : f.Anchored B c) : P.Provided (f.cut c) := by
  obtain ⟨d, js, ⟨is, his, -⟩, hjs, hsize, -⟩ := hf
  have hcode : (f.cut c).code = d := by
    rw [Function.cut, ← hsize]
    exact his.truncate_eq hjs
  refine ⟨⟨is, hcode ▸ his⟩, fun i hi => h.operands i ?_, h.locals⟩
  rw [hcode, his.instructions_eq] at hi
  rw [(his.writes hjs).instructions_eq, Code.located_append]
  exact List.mem_append_left _ hi

namespace Session

variable {s t : Session} {m : Function} {texts : String → Prop} {c : Call}

theorem valid_reset (hrec : Recoverable False s) (h : s.program.Valid) : s.reset.program.Valid := by
  have hforget (id : Nat) :
      (s.program.modifyFunction (fun f => { f.clear with defined := false }) id).Valid :=
    h.modifyFunction fun _ _ => Program.provided_of_empty rfl rfl
  have habandon : s.abandonDefinition.program.Valid := by
    unfold abandonDefinition
    split
    · exact h
    · exact hforget s.target
  have hmain : s.abandonDefinition.program.main = s.program.main :=
    (abandonDefinition_settled hrec).1
  have hcut : s.reset.program =
      s.abandonDefinition.program.modifyFunction (·.cut s.reset.checkpoint) Program.mainId := rfl
  rw [hcut, checkpoint_reset]
  refine habandon.modifyFunction fun f hf => ?_
  have hprovided := habandon.provided _ f hf
  cases hf
  exact hprovided.cut (hmain ▸ hrec.anchored)

theorem valid_clearAnswer (h : s.program.Valid) : s.clearAnswer.program.Valid := by
  show (s.program.modifyFunction Function.clear Program.answerId).Valid
  exact h.modifyFunction fun _ _ => Program.provided_of_empty rfl rfl

theorem valid_compile (h : s.Consistent False) (hs : s.program.Valid) (text : String) :
    (s.compile text).2.program.Valid := by
  have hsafe := Compile.safe.keeps (m := Compile.chunk) ⟨named_start s text, hs⟩
  rcases compile_cases h False.elim with ⟨status, q, hq, heq⟩ | ⟨d, q, hq, hrec, heq⟩ <;> rw [heq]
  · exact (hsafe.ok hq).1.2
  · exact valid_reset hrec (hsafe.error hq)

theorem valid_finish (h : s.Consistent False) (hs : s.program.Valid) :
    s.finish.2.program.Valid := by
  have hsafe := Compile.safe.keeps (m := Compile.inputEnd) ⟨named_start s "", hs⟩
  rcases finish_cases h with ⟨q, hq, heq⟩ | ⟨d, q, hq, hrec, heq⟩ <;> rw [heq]
  · rw [program_commit]
    exact (hsafe.ok hq).1.2
  · exact valid_reset hrec (hsafe.error hq)

theorem valid_compileAnswer (hs : s.program.Valid) (text : String) :
    (s.compileAnswer text).2.program.Valid := by
  have hsafe := Compile.safe.keeps (m := Compile.answer)
    ⟨named_start s.reading text, valid_clearAnswer hs⟩
  obtain ⟨u, is, q, -, ⟨hq, heq⟩ | ⟨d, hq, heq⟩⟩ := compileAnswer_cases s text <;> rw [heq]
  · exact (hsafe.ok hq).1.2
  · exact valid_clearAnswer (hsafe.error hq)

/-- **Every call keeps the program valid.** -/
theorem valid_call (h : s.Consistent False) (hs : s.program.Valid) (c : Call) :
    (c.run s).2.program.Valid := by
  cases c with
  | compile text => exact valid_compile h hs text
  | finish => exact valid_finish h hs
  | reset => exact valid_reset h.recoverable hs
  | takeWarnings => exact hs
  | compileAnswer text => exact valid_compileAnswer hs text

end Session

/-! ## Labels -/

namespace Draft

variable {d e : Draft} {anew : String → Prop} {n : Nat}

/-- All jumps name labels that are there, and so did those of the main code at the checkpoint. -/
structure Moored (d : Draft) : Prop where
  wired : d.Wired 0
  mark : ∃ m, d.Marks m ∧ m.Wired 0

/-- The same where the function that receives code is given up and the main code is cut at the
checkpoint. -/
structure Salvaged (d : Draft) : Prop where
  others : ∀ i g, i ≠ d.target → d.program.function? i = some g → g.Wired 0
  mark : ∃ m, d.Marks m ∧ m.Wired 0

theorem Moored.edits (h : d.Moored) (he : d.Edits anew 0 e) : e.Moored := by
  obtain ⟨m, hm, hwired⟩ := h.mark
  exact ⟨he.wired h.wired, m, hm.retains he.retains he.checkpoint_eq, hwired⟩

theorem Moored.broken (h : d.Moored) (he : d.Edits anew n e) : e.Salvaged := by
  obtain ⟨m, hm, hwired⟩ := h.mark
  exact ⟨(he.wired h.wired).others, m, hm.retains he.retains he.checkpoint_eq, hwired⟩

/-- Where nothing is open the checkpoint moves to the end of the main code. -/
theorem Moored.commit {p : Pass} (h : p.draft.Moored) (hp : p.Steady False)
    (hready : p.isReady = true) :
    Moored { p.draft with
      checkpoint := ⟨p.program.main.code.size, p.program.main.labels.size⟩ } := by
  have htarget : p.target = Program.mainId := by
    simp only [Session.isReady, Bool.and_eq_true, beq_iff_eq] at hready
    exact hready.1
  have hfunction : p.draft.function? = some p.program.main := by
    show p.program.function? p.target = _
    rw [htarget]
    rfl
  refine ⟨⟨h.wired.function, h.wired.others⟩, p.program.main, ?_, (h.wired.congr hfunction).1⟩
  exact ⟨Compile.settled_of_isReady hp hready, .refl _, rfl⟩

end Draft

namespace Session

variable {s t : Session} {m : Function} {texts : String → Prop} {c : Call}

theorem moored_commit {p : Pass} (h : p.draft.Moored) (hp : p.Steady False) :
    p.toSession.commit.draft.Moored := by
  unfold commit
  split
  · next hready => exact h.commit hp hready
  · exact h

/-- Going back leaves the main code of the checkpoint, and the functions that received no code. -/
theorem moored_reset (h : s.draft.Salvaged) : s.reset.draft.Moored := by
  obtain ⟨m, hm, hwired⟩ := h.mark
  obtain ⟨hcode, hlabels⟩ := main_reset hm
  have hmain : s.reset.program.main.Wired 0 := hwired.congr hcode (by rw [hlabels])
  refine ⟨⟨⟨s.reset.program.main, ?_, hmain, nofun, nofun⟩, fun i g hi hg => ?_⟩, m, ?_, hwired⟩
  · show s.reset.program.function? s.reset.target = _
    rw [target_reset]
    rfl
  · have hi' : i ≠ Program.mainId := target_reset s ▸ hi
    have hg' : s.reset.program.function? i = some g := hg
    rw [function?_reset s hi'] at hg'
    split at hg'
    · obtain ⟨k, -, rfl⟩ := Option.map_eq_some_iff.1 hg'
      exact Function.wired_of_empty rfl
    · next hi => exact h.others i g hi hg'
  · refine ⟨hm.settled, ⟨⟨[], ?_⟩, ?_⟩, (checkpoint_reset s).trans hm.checkpoint⟩
    · rw [show s.reset.draft.program.main.code = _ from hcode]
      exact .nil
    · rw [show s.reset.draft.program.main.labels = _ from hlabels]
      exact fun _ _ => id

theorem moored_compile (h : s.Tracks m) (hs : s.draft.Moored) (text : String) :
    (s.compile text).2.draft.Moored := by
  have hchunk := Compile.chunk_keeps (fun _ _ _ hd => hd.edits) (fun _ _ _ _ hd => hd.broken)
    (fun _ hq hready hd => hd.commit hq hready) (h.steady text) (by simp [Pass.start]) hs
  rcases compile_cases h.consistent False.elim with ⟨status, q, hq, heq⟩ | ⟨d, q, hq, -, heq⟩ <;>
    rw [heq]
  · exact hchunk.ok hq
  · exact moored_reset (hchunk.error hq ⟨d, rfl⟩)

theorem moored_finish (h : s.Tracks m) (hs : s.draft.Moored) : s.finish.2.draft.Moored := by
  have hstart : (Pass.start s "").token.kind ≠ .eof := by simp [Pass.start]
  have hedits := Compile.inputEnd_edits (fun _ => False) (h.steady "") hstart
  rcases finish_cases h.consistent with ⟨q, hm, heq⟩ | ⟨d, q, hm, -, heq⟩ <;> rw [heq]
  · obtain ⟨hq, hpq⟩ := hedits.ok hm
    exact moored_commit (hs.edits hpq) hq
  · obtain ⟨-, n, hn⟩ := hedits.error hm
    exact moored_reset (hs.broken hn)

/-- Only the answer changes, and new names get functions without code. -/
theorem moored_answered (hs : s.draft.Moored) (hmain : s.target = Program.mainId)
    {is : List Command} {P : Program} {a : Function}
    (hP : s.clearAnswer.program.Extends Program.answerId is P) (ha : a.Wired 0)
    (hprogram : t.program = P.modifyFunction (fun _ => a) Program.answerId)
    (htarget : t.target = Program.mainId)
    (hexits : t.exits = s.exits) (hcontinues : t.continues = s.continues)
    (hcheckpoint : t.checkpoint = s.checkpoint) : t.draft.Moored := by
  have hPmain : t.program.main = s.program.main := by
    rw [hprogram]
    exact Option.some.inj (hP.others Program.mainId s.program.main (by decide) rfl)
  have hold : s.draft.function? = some s.program.main := by
    show s.program.function? s.target = _
    rw [hmain]
    rfl
  obtain ⟨hwired, hex, hcont⟩ := hs.wired.congr hold
  obtain ⟨m, hm, hmwired⟩ := hs.mark
  refine ⟨⟨⟨s.program.main, ?_, hwired, ?_, ?_⟩, fun i g hi hg => ?_⟩, m, ?_, hmwired⟩
  · show t.program.function? t.target = _
    rw [htarget, ← hPmain]
    rfl
  · show ∀ x ∈ t.exits, _
    rw [hexits]
    exact hex
  · show ∀ l ∈ t.continues, _
    rw [hcontinues]
    exact hcont
  · have hg' : t.program.function? i = some g := hg
    have hi' : i ≠ Program.mainId := htarget ▸ hi
    by_cases hanswer : i = Program.answerId
    · subst hanswer
      rw [hprogram] at hg'
      cases hg'
      exact ha
    · rw [hprogram, Program.function?_answer _ _ hanswer] at hg'
      refine Draft.Wired.others_of_extends (fun j k hj hk => ?_) hP i g hanswer hg'
      rw [clearAnswer, Program.function?_answer _ _ hj] at hk
      by_cases hjmain : j = s.target
      · subst hjmain
        exact (hs.wired.congr hk).1
      · exact hs.wired.others j k hjmain hk
  · refine ⟨hm.settled, ?_, hcheckpoint.trans hm.checkpoint⟩
    show m.GrowsTo t.program.main
    rw [hPmain]
    exact hm.grows

theorem moored_compileAnswer (hs : s.draft.Moored) (hmain : s.target = Program.mainId)
    (text : String) : (s.compileAnswer text).2.draft.Moored := by
  obtain ⟨u, is, q, hq, ⟨hm, heq⟩ | ⟨d, -, heq⟩⟩ := compileAnswer_cases s text <;> rw [heq]
  · have hanswer := Compile.answer_sound (inOrder_start (s := s.reading) rfl text)
      (by simp [Pass.start])
    obtain ⟨u, is, hq, -, hplain, -⟩ := hanswer.ok hm
    have hwired : q.program.answer.Wired 0 := by
      obtain ⟨f, c, hf, hc, hanswer⟩ := hq.program.written
      cases hf
      rw [show q.program.answer = _ from Option.some.inj hanswer]
      refine (Function.wired_of_empty rfl).writes hc fun i hi hjump l hl => ?_
      rw [hplain i hi hjump] at hl
      cases hl
    exact moored_answered hs hmain hq.program hwired rfl rfl hq.exits hq.continues hq.checkpoint
  · exact moored_answered (a := q.program.answer.clear) hs hmain hq.program
      (Function.wired_of_empty rfl) rfl rfl hq.exits hq.continues hq.checkpoint

/-- **Between two calls every jump names a label.** -/
theorem moored_call (h : s.Tracks m) (hs : s.draft.Moored) (hc : c.Allowed texts s) :
    (c.run s).2.draft.Moored := by
  cases c with
  | compile text => exact moored_compile h hs text
  | finish => exact moored_finish h hs
  | reset => exact moored_reset ⟨hs.wired.others, hs.mark⟩
  | takeWarnings => exact ⟨⟨hs.wired.function, hs.wired.others⟩, hs.mark⟩
  | compileAnswer text => exact moored_compileAnswer hs hc.2 text

end Session

/-! ## Functions of a session -/

/-- The instructions lie one behind the other from the offset on, and the last one ends where the
code does. -/
def Code.Tiles (c : Code) : Nat → List Instruction → Prop
  | offset, [] => offset = c.size
  | offset, i :: is => i.offset = offset ∧
      ∃ size, decode (c.bytes.drop offset) = some (i.op, i.operands, size) ∧
        c.Tiles (offset + size) is

theorem Code.Holds.tiles {c : Code} {is js : List Command} (h : c.Holds (is ++ js)) :
    c.Tiles (encodeAll is).length (located (encodeAll is).length js) := by
  induction js generalizing is with
  | nil =>
    rw [List.append_nil] at h
    exact h.size_eq.symm
  | cons j js ih =>
    obtain ⟨op, operands⟩ := j
    have hop : operands.length = op.operandCount :=
      Writes.operands_length h (op, operands) (by simp)
    have hnext := @ih (is ++ [(op, operands)]) (by simpa using h)
    refine ⟨rfl, (encode op operands).length, ?_, ?_⟩
    · rw [h.bytes_eq, encodeAll_append, List.drop_left, encodeAll_cons, decode_encode hop]
    · simpa [encodeAll] using hnext

/-- What the code, the lines, the operands and the locals of a function of `P` must be. -/
structure Program.WellFormed (P : Program) (f : Function) : Prop where
  /-- The code is read to its very end. -/
  decoded : f.code.Tiles 0 f.code.instructions
  /-- This much is so of all code. -/
  lines : f.code.lines.length = f.code.bytes.length
  /-- Where the last instruction starts, and its opcode. -/
  last : f.code.lastOffset = f.code.instructions.getLast?.map (·.offset) ∧
    f.code.lastOpcode? = f.code.instructions.getLast?.map (·.op)
  operands : ∀ i ∈ f.code.instructions, P.Provides i.op i.operands
  jumps : ∀ i ∈ f.code.instructions, i.op.isJump = true →
    ∃ l, i.operands = [l] ∧ l < f.labels.size
  locals : ∀ l ∈ f.locals, P.Knows l

theorem Program.wellFormed {P : Program} {f : Function} (h : P.Provided f) (hf : f.Wired 0) :
    P.WellFormed f := by
  obtain ⟨is, his, hjumps⟩ := hf
  refine ⟨?_, by rw [Code.length_lines, Code.length_bytes], his.last_eq, h.operands, ?_,
    h.locals⟩
  · rw [his.instructions_eq]
    exact @Code.Holds.tiles _ [] is his
  · intro i hi hjump
    rw [his.instructions_eq] at hi
    obtain ⟨⟨op, operands⟩, hmem, hop, hoperands⟩ := Code.mem_located hi
    rw [hop] at hjump
    have hone : op.operandCount = 1 := by cases op <;> first | rfl | cases hjump
    obtain ⟨l, rfl⟩ := List.length_eq_one_iff.1
      ((Code.Writes.operands_length his _ hmem).trans hone)
    refine ⟨l % wordBound, hoperands, ?_⟩
    exact Nat.lt_of_le_of_lt (Nat.mod_le l _) (hjumps _ hmem hjump l (List.mem_singleton_self l))

namespace Session

variable {s : Session} {texts : String → Prop}

theorem valid_new {options : Options}
    (hconstants : options.limits.constants ≤ wordBound)
    (hfunctions : options.limits.functions ≤ wordBound) : (new options).program.Valid := by
  refine ⟨⟨hconstants, Nat.zero_le _⟩, ⟨hfunctions, (by decide : 2 ≤ wordBound)⟩, ⟨rfl, rfl⟩,
    ⟨?_, ?_, ?_⟩, fun id f hf => ?_⟩
  · simp [new, Program.new, Store.new, Table.get?]
  · simp [new, Program.new, Store.new, Table.get?]
  · simp [new, Program.new, Store.new, Program.function?]
  rcases id with _ | _ | id
  · cases hf
    exact Program.provided_of_empty rfl rfl
  · cases hf
    exact Program.provided_of_empty rfl rfl
  · simp [new, Program.new, Store.new, Program.function?] at hf

theorem leads_moored {options : Options} (hconstants : options.limits.constants ≤ wordBound)
    (hfunctions : options.limits.functions ≤ wordBound) (h : (new options).Leads texts s) :
    s.program.Valid ∧ s.draft.Moored ∧ ∃ m, s.Tracks m := by
  have hhistory : (new options).History texts _ := .new options
  have hnew := hhistory.tracks
  induction h with
  | refl =>
    refine ⟨valid_new hconstants hfunctions, ⟨wired_new options, _, hnew.marks, ?_⟩, _, hnew⟩
    exact Function.wired_of_empty rfl
  | call _ hc ih =>
    obtain ⟨hvalid, hmoored, m, htracks⟩ := ih
    exact ⟨valid_call htracks.consistent hvalid _, moored_call htracks hmoored hc, _,
      (tracks_call htracks hc).1⟩

/-- **Every operand stands for something.** This holds of all functions of a session that comes out
of a new one by calls, whatever their outcomes, also of those that are only half defined. An answer
inside a definition is not among the calls. The sizes of tables are 64-bit numbers. -/
theorem leads_wellFormed {options : Options} (hconstants : options.limits.constants ≤ wordBound)
    (hfunctions : options.limits.functions ≤ wordBound) (h : (new options).Leads texts s) {id : Nat}
    {f : Function} (hf : s.program.function? id = some f) : s.program.WellFormed f := by
  obtain ⟨hvalid, hmoored, -⟩ := leads_moored hconstants hfunctions h
  refine Program.wellFormed (hvalid.provided id f hf) ?_
  by_cases hid : id = s.target
  · subst hid
    exact (hmoored.wired.congr hf).1
  · exact hmoored.wired.others id f hid hf

/-- A function that is open inside a loop, with operands of all kinds. -/
def openDefinition : Call :=
  .compile ("define f(n, a[]) \x7b\nauto b[], k\nwhile (n) \x7b\n" ++
    "if (n == 7) print \"seven\", f(n - 1, a[])\nb[k++] = a[12.\\\n5]\n")

/-- The function is ended, and what follows is refused, so that its code is cut off again. -/
def cutOff : Call := .compile "\x7d\n\x7d\nif (x) g(2)\nelse y = )\n"

/-- The session after both. -/
def afterCutOff : Session := (cutOff.run (openDefinition.run (new {})).2).2

theorem afterCutOff_wellFormed :
    (new {}).Leads (fun _ => True) afterCutOff ∧ afterCutOff.program.main.code.size = 0 ∧
      afterCutOff.program.constants.size = 4 ∧
      ∃ f, afterCutOff.program.function? 2 = some f ∧ f.code.instructions.length = 22 ∧
        f.locals.length = 4 ∧ afterCutOff.program.WellFormed f := by
  have hopen : (new {}).Leads (fun _ => True) (openDefinition.run (new {})).2 :=
    .call .refl (show openDefinition.Allowed _ _ from trivial)
  have hleads : (new {}).Leads (fun _ => True) afterCutOff :=
    .call hopen (show cutOff.Allowed _ _ from trivial)
  have hmain : afterCutOff.program.main.code.size = 0 ∧ afterCutOff.program.constants.size = 4 := by
    decide +kernel
  have hfunction : (afterCutOff.program.function? 2).map
      (fun f => (f.code.instructions.length, f.locals.length)) = some (22, 4) := by decide +kernel
  obtain ⟨f, hf, hsizes⟩ := Option.map_eq_some_iff.1 hfunction
  simp only [Prod.mk.injEq] at hsizes
  exact ⟨hleads, hmain.1, hmain.2, f, hf, hsizes.1, hsizes.2,
    leads_wellFormed (by decide) (by decide) hleads hf⟩

end Session

end DeskCalc
