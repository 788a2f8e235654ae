import DeskCalc.Proofs.Expression.Parts
import DeskCalc.Statement

/-!
# What reads no token

Most of what the compiler does between two tokens changes the program, labels or blocks, but not the
place in the text: it is `Quiet`.
-/

namespace DeskCalc

namespace Compile

variable {α β : Type} {m n : Compile α} {f : α → Compile β}

/-- No token is read. -/
class Quiet (m : Compile α) : Prop where
  quiet : ∀ p, Accepts m p fun _ q => q.token = p.token ∧ q.previous = p.previous

instance quiet_pure (a : α) : Quiet (pure a : Compile α) := ⟨fun _ => ⟨rfl, rfl⟩⟩

instance quiet_throw (e : Stop) : Quiet (throw e : Compile α) := ⟨fun _ => trivial⟩

instance quiet_get : Quiet (get : Compile Pass) := ⟨fun _ => ⟨rfl, rfl⟩⟩

instance quiet_kind : Quiet kind := ⟨fun _ => ⟨rfl, rfl⟩⟩

instance quiet_isAt (k : Token.Kind) : Quiet (isAt k) := ⟨fun _ => ⟨rfl, rfl⟩⟩

instance quiet_here : Quiet here := ⟨fun _ => ⟨rfl, rfl⟩⟩

instance quiet_atDelimiter : Quiet atDelimiter := ⟨fun _ => ⟨rfl, rfl⟩⟩

instance quiet_topBlock : Quiet topBlock := ⟨fun _ => ⟨rfl, rfl⟩⟩

instance quiet_modifyBlocks (f : BlockStack → BlockStack) : Quiet (modifyBlocks f) :=
  ⟨fun _ => ⟨rfl, rfl⟩⟩

instance quiet_putFunction (f : Function) : Quiet (putFunction f) :=
  ⟨fun _ => ⟨rfl, rfl⟩⟩

theorem quiet_modify {change : Pass → Pass}
    (h : ∀ p : Pass, (change p).token = p.token ∧ (change p).previous = p.previous) :
    Quiet (modify change) := ⟨h⟩

instance quiet_bind [hm : Quiet m] [hf : ∀ a, Quiet (f a)] : Quiet (m >>= f) where
  quiet p := Ensures.bind (hm.quiet p) (fun a q hq => ((hf a).quiet q).imp
    fun _ _ hr => ⟨hr.1.trans hq.1, hr.2.trans hq.2⟩) fun _ _ => id

instance quiet_ite {c : Prop} [Decidable c] [hm : Quiet m] [hn : Quiet n] :
    Quiet (if c then m else n) := by
  split <;> assumption

instance quiet_refuse (cause : Cause) (span : Span) (name : Option String) :
    Quiet (refuse cause span name : Compile α) := quiet_throw _

instance quiet_refuseHere (cause : Cause) : Quiet (refuseHere cause : Compile α) :=
  ⟨fun _ => trivial⟩

instance quiet_unexpected : Quiet (unexpected : Compile α) :=
  ⟨fun _ => ensures_unexpected fun _ => trivial⟩

instance quiet_report (v : Violation) (span : Span) : Quiet (report v span) where
  quiet p := by
    simp only [Accepts, report, ensures_bind, ensures_get]
    split
    · exact ⟨rfl, rfl⟩
    · exact ⟨rfl, rfl⟩
    · trivial

instance quiet_intern (f : Program → Except Diagnostic (Nat × Program)) : Quiet (intern f) where
  quiet p := by
    refine (ensures_self _).mono (fun k q hq => ?_) fun _ _ _ => trivial
    obtain ⟨P, -, rfl⟩ := exists_of_intern hq
    exact ⟨rfl, rfl⟩

instance quiet_function : Quiet function where
  quiet p := by
    simp only [Accepts, function, ensures_bind, ensures_get]
    split
    · exact ⟨rfl, rfl⟩
    · trivial

instance quiet_modifyFunction (change : Function → Function) : Quiet (modifyFunction change) where
  quiet p := by
    simp only [Accepts, modifyFunction, ensures_bind, ensures_get, ensures_ite, ensures_set,
      ensures_throw]
    split
    · exact ⟨trivial, trivial⟩
    · trivial

instance quiet_emitWith (op : Opcode) (operands : List Nat) : Quiet (emitWith op operands) := by
  unfold emitWith
  infer_instance

instance quiet_emit (op : Opcode) : Quiet (emit op) := quiet_emitWith op []

instance quiet_emitJump (label : Nat) : Quiet (emitJump label) := quiet_emitWith ..

instance quiet_emitJumpZero (label : Nat) : Quiet (emitJumpZero label) := quiet_emitWith ..

instance quiet_suppressValue (t : Tally) : Quiet (suppressValue t) := by
  have hcode (f : Function) (code? : Option Code) : Quiet (match code? with
      | some code => do
        putFunction { f with code := code }
        return true
      | none => return false : Compile Bool) := by
    cases code? <;> infer_instance
  unfold suppressValue
  infer_instance

instance quiet_emitOperators (ops : List Operator) : Quiet (emitOperators ops) := by
  induction ops with
  | nil => exact quiet_pure ()
  | cons op ops ih =>
    unfold emitOperators
    cases op.opcode? <;> infer_instance

instance quiet_requireValue (outcome : Outcome) : Quiet (requireValue outcome) := by
  cases outcome
  · exact quiet_pure ()
  · exact quiet_refuseHere _

instance quiet_nextLabel : Quiet nextLabel := by
  unfold nextLabel
  infer_instance

instance quiet_makeLabel (label : Label) : Quiet (makeLabel label) := by
  unfold makeLabel
  infer_instance

instance quiet_labelHere : Quiet labelHere := by
  unfold labelHere
  infer_instance

instance quiet_openExit (isLoop : Bool) : Quiet (openExit isLoop) := by
  have hset (label : Nat) :
      Quiet (modify fun p => { p with exits := ⟨label, isLoop⟩ :: p.exits }) :=
    quiet_modify fun _ => ⟨rfl, rfl⟩
  unfold openExit
  infer_instance

instance quiet_ensureLabel (created expected : Nat) : Quiet (ensureLabel created expected) := by
  unfold ensureLabel
  infer_instance

instance quiet_resolveExit : Quiet resolveExit where
  quiet p := by
    simp only [Accepts, resolveExit, ensures_bind, ensures_get]
    split
    · exact ⟨rfl, rfl⟩
    · have hput (exit : Exit) (f : Function) :
          Quiet (match f.labels.resolve exit.label f.code.size with
          | .ok labels => putFunction { f with labels := labels }
          | .error fault => throw (.fault (.label fault))) := by
        split <;> infer_instance
      exact (quiet_bind (m := function)).quiet _

instance quiet_openBody (b : Block) : Quiet (openBody b) := quiet_modifyBlocks _

instance quiet_endIf : Quiet endIf := by
  unfold endIf
  infer_instance

instance quiet_declareLocal (t : Token) (localKind : LocalKind) :
    Quiet (declareLocal t localKind) := by
  have hinsert (f? : Option Function) : Quiet (match f? with
      | some f => putFunction f
      | none => refuse .duplicateLocal t.span (some t.text)) := by
    cases f? <;> infer_instance
  unfold declareLocal
  infer_instance

end Compile

end DeskCalc
