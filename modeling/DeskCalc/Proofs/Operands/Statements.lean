import DeskCalc.Proofs.Operands.Kept

/-!
# Statements keep a program valid

What is left of the compiler besides expressions, headers and bodies: returns, declarations and
definitions, and with them whole chunks.
-/

namespace DeskCalc

namespace Compile

variable {p : Pass}

theorem safe_emit {op : Opcode} (hop : op.operandCount = 0) : Safe (emit op) :=
  safe.fine fun _ h => emitWith_sound h (show ([] : List Nat).length = _ from hop.symm)
    (Program.provides_of_operandCount hop)

/-! ## Definitions -/

/-- A local is declared with an index of its namespace. -/
theorem safe_declareLocal {t : Token} (hname : IsName t.text) (kind : LocalKind) :
    Safe (declareLocal t kind) := by
  refine safe.declareLocal hname trivial fun p k f h hat hf _ => ?_
  have hknows : p.program.Knows ⟨k, kind⟩ := by
    unfold Program.Knows
    unfold TableEntry.ofLocal at hat
    split <;> rw [Table.lt_size_iff]
    · next harray => exact ⟨_, by rwa [if_pos harray] at hat⟩
    · next hscalar => exact ⟨_, by rwa [if_neg hscalar] at hat⟩
  have hold := h.2.provided _ f hf
  refine putFunction_sound h ⟨hold.code, hold.operands, fun l hl => ?_⟩
  rcases List.mem_append.1 hl with hl | hl
  · exact hold.locals l hl
  · exact List.mem_singleton.1 hl ▸ hknows

theorem safe_sign {change : Function → Function}
    (hcode : ∀ f, (change f).code = f.code) (hlocals : ∀ f, (change f).locals = f.locals) :
    Safe (modifyFunction change) :=
  safe.fine fun _ h => modifyFunction_sound h fun f hf => hf.congr (hcode f) (hlocals f)

instance safe_whole : Whole safe where
  shift _ := safe.fine fun _ h => ⟨h, .refl _⟩
  declare ht _ hname kind := by
    cases ht.1
    exact safe_declareLocal hname kind
  count := safe_sign (fun _ => rfl) fun _ => rfl
  target _ := safe.fine fun _ h => ⟨h, .refl _⟩
  returns {op} hop := safe_emit (by cases op <;> first | rfl | cases hop)
  -- a function that begins anew has neither code nor locals
  begins _ := safe.fine fun _ h => modifyFunction_sound h fun _ _ =>
    Program.provided_of_empty rfl rfl
  opens := safe.fine fun _ h => ⟨h, .refl _⟩
  finishes := safe_sign (fun _ => rfl) fun _ => rfl

/-! ## Chunks -/

theorem target_commit (s : Session) : s.commit.target = s.target := by
  unfold Session.commit
  split <;> rfl

section Chunks

variable {K : Stepwise} [hitem : Fine K.parts item]

instance fine_nextItem : Fine K.parts nextItem := by
  have hcommit : Fine K.parts (modify committed) :=
    fine_modify .refl (fun p => Session.program_commit p.toSession)
      (fun p => target_commit p.toSession) fun p => blocks_commit p.toSession
  unfold nextItem itemEnd
  infer_instance

instance fine_chunk : Fine K.parts chunk := by
  rw [chunk]
  infer_instance

end Chunks

instance safe_answer : Safe answer := by
  have hret : Safe (emit .ret) := safe_emit rfl
  unfold answer
  infer_instance

instance safe_inputEnd : Safe inputEnd := by
  unfold inputEnd
  infer_instance

end Compile

end DeskCalc
