import DeskCalc.Proofs.Strictness.Expression
import DeskCalc.Proofs.Statement.Parts

/-!
# Statements under two strictnesses

Labels and jumps are written in lockstep, so that headers, `print` and definitions are compiled in
lockstep as well. The parts that end a body are compiled alike wherever the passes are, as long as
they do not look for an `else`.
-/

namespace DeskCalc.Compile

open Pass

variable {α : Type} {μ : Strictness} {V : Spot → Spot → Prop} {auto quit : Bool} {p : Pass}
  {X : Option Pass}

/-! ## Blocks -/

theorem openBody_parallel (b : Block) : Parallel μ V (openBody b) (openBody b) :=
  modifyBlocks_parallel _

theorem openBrace_parallel : Parallel μ V openBrace openBrace := modifyBlocks_parallel _

theorem closeBlock_parallel : Parallel μ V closeBlock closeBlock := modifyBlocks_parallel _

theorem endIf_parallel : Parallel μ V endIf endIf :=
  (modifyBlocks_parallel _).bind fun _ => resolveExit_parallel

/-- A loop jumps back to where it continues. -/
theorem jumpBack_parallel {rest : Compile Unit} (hrest : Parallel μ V rest rest) :
    Parallel μ V
      (do
        let p ← get
        match p.continues with
        | [] => rest
        | label :: continues =>
          set { p with continues := continues }
          emitJump label
          rest)
      (do
        let p ← get
        match p.continues with
        | [] => rest
        | label :: continues =>
          set { p with continues := continues }
          emitJump label
          rest) := by
  intro p X h
  have hcontinues : (X.getD p).continues = p.continues := (same_of_partner h).continues
  refine paired_get ?_
  rw [hcontinues]
  cases p.continues with
  | nil => exact hrest p X h
  | cons label continues =>
    have hset : Paired μ (set { p with continues := continues }) p
        (set { X.getD p with continues := continues }) X
        fun a b q Q => b = a ∧ q.Beside μ V (Work.Same μ) Q := by
      cases X with
      | none => exact h
      | some P => exact ⟨rfl, h.spot, h.line, { h.work with continues := rfl }⟩
    refine hset.seq fun _ q Y hq => ?_
    exact (emitJump_parallel label).bind (fun _ => hrest) q Y hq

theorem isVoid_same {f F : Function} (h : μ.Same Function.unlined f F) : F.isVoid = f.isVoid :=
  h.map_eq (g := Function.isVoid) fun _ => rfl

theorem closeInnermost_parallel (braced : Bool) :
    Parallel μ V (closeInnermost braced) (closeInnermost braced) := by
  have hclose : Parallel μ V (do resolveExit; closeBlock) (do resolveExit; closeBlock) :=
    resolveExit_parallel.bind fun _ => closeBlock_parallel
  refine topBlock_parallel.bind fun top => ?_
  dsimp only
  split
  · split
    · exact jumpBack_parallel hclose
    · exact hclose
  split
  · refine parallel_function fun f F h => ?_
    rw [isVoid_same h]
    refine (emit_parallel _).bind fun _ => Together.bind ?_ fun _ => closeBlock_parallel
    exact parallel_modify (fun _ => rfl) fun _ _ h => { h with target := rfl }
  · exact together_ite closeBlock_parallel (together_pure _)

/-! ## Headers, jumps and definitions -/

instance moves_lockstep : Moves (lockstep μ auto quit) where
  Twin := μ.Same Function.unlined
  twin h := h.forgets
  anyReads := rfl
  frame := by
    rintro p _ ⟨X, rfl, h⟩
    exact ⟨(same_of_partner h).blocks, (same_of_partner h).exits, (same_of_partner h).continues⟩
  fault _ _ _ _ _ := paired_throw _
  function _ hm X hP h := paired_function h fun f F hf hF => hm f F hf hF X hP h
  jump _ _ _ _ X _ h := emitWith_parallel _ _ _ X h
  relabel _ _ hF labels X _ h := parallel_putFunction (same_setLabels hF labels) _ X h
  exits _ exits X hP h := by
    subst hP
    cases X with
    | none => exact h
    | some P => exact ⟨rfl, h.spot, h.line, { h.work with exits := rfl }⟩
  continues _ continues X hP h := by
    subst hP
    cases X with
    | none => exact h
    | some P => exact ⟨rfl, h.spot, h.line, { h.work with continues := rfl }⟩

theorem fine_of_parallel {m : Compile α} (h : Lockstep μ auto quit m m) :
    Fine (lockstep μ auto quit) m := ⟨fun p _ _ X _ hX => h p X hX⟩

instance shifts_lockstep : Shifts (lockstep μ auto quit) where
  shift _ := fine_of_parallel (modifyBlocks_parallel _)

instance lockstep_returnValue : Fine (lockstep μ auto quit) returnValue :=
  fine_returnValue fun op _ => fine_of_parallel (emit_parallel op)

theorem declareLocal_parallel (t : Token) (localKind : LocalKind) :
    Parallel μ V (declareLocal t localKind) (declareLocal t localKind) := by
  rw [declareLocal, TableEntry.enter_ofLocal]
  refine (intern_parallel (TableEntry.interns _ _ _)).bind fun index =>
    parallel_function fun f F h => ?_
  have hinsert : (F.insertLocal? ⟨index, localKind⟩).map Function.unlined =
      (f.insertLocal? ⟨index, localKind⟩).map Function.unlined := by
    rw [← Function.insertLocal?_unlined, h.forgets, Function.insertLocal?_unlined]
  cases hf : f.insertLocal? ⟨index, localKind⟩ with
  | none =>
    rw [hf, Option.map_none, Option.map_eq_none_iff] at hinsert
    rw [hinsert]
    exact refuse_together
  | some g =>
    rw [hf, Option.map_some, Option.map_eq_some_iff] at hinsert
    obtain ⟨G, hG, heq⟩ := hinsert
    rw [hG]
    refine parallel_putFunction ⟨heq, fun hμ => ?_⟩
    have hF := h.eq hμ
    subst hF
    rw [hf, Option.some.injEq] at hG
    exact hG.symm

instance declares_lockstep : Declares (lockstep μ auto quit) where
  declare ht _ _ localKind := ht ▸ fine_of_parallel (declareLocal_parallel _ localKind)
  count := fine_of_parallel (modifyFunction_parallel fun f F hF => by
    simp only [Function.unlined, Function.mk.injEq] at hF ⊢
    simp [hF])

instance lockstep_define : Fine (lockstep μ auto quit) define := by
  refine fine_define (fun id => fine_of_parallel ?_) (fun isVoid => fine_of_parallel ?_)
    (fine_of_parallel (openBody_parallel _)) (fine_of_parallel ?_)
  · exact parallel_modify (fun _ => rfl) fun _ _ h => { h with target := rfl }
  · refine modifyFunction_parallel fun f F hF => ?_
    simp only [Function.unlined, Function.mk.injEq] at hF
    simp [Function.clear, hF]
  · refine modifyFunction_parallel fun f F hF => ?_
    simp only [Function.unlined, Function.mk.injEq] at hF ⊢
    simp [hF]

/-- The flags of both passes are set alike. -/
theorem paired_setAuto (auto' : Bool) (h : p.Partner (Level μ auto quit) X) :
    Paired μ (modify fun p => { p with autoAllowed := auto' }) p
      (modify fun p => { p with autoAllowed := auto' }) X
      fun a b q Q => b = a ∧ q.Level μ auto' quit Q := by
  cases X with
  | none => exact h
  | some P => exact ⟨rfl, { h.spot with auto := ⟨rfl, rfl⟩ }, h.line, h.work⟩

theorem autoDecl_paired (h : p.Partner (Level μ auto quit) X) :
    Paired μ autoDecl p autoDecl X fun a b q Q => b = a ∧ q.Level μ false quit Q := by
  refine paired_get ?_
  rw [(sees_of_partner h).autoAllowed]
  split
  · refine (advance_abreast p X h).seq fun _ q Y hq => ?_
    refine (paired_setAuto false hq).seq fun _ r Z hr => ?_
    refine Together.bind (lockstep_of_fine (alongside_perToken _)) (fun state => ?_) r Z hr
    refine together_ite refuseHere_abreast (together_ite refuseHere_abreast ?_)
    exact atDelimiter_lockstep.bind fun _ => together_ite (together_pure _) unexpected_abreast
  · exact paired_refuseHere h

end DeskCalc.Compile
