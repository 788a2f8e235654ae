import DeskCalc.Proofs.Layout.Functions

/-!
# Braces around bodies

The body of an `if`, an `else` or a loop is a statement, with braces around it or without. Braces do
not show in the code (`Stmt.layout_embraced`), so that a text and the same text with braces around
all of its bodies are compiled alike (`Session.laysOut_embraced`). The one body that needs braces
begins with a step behind the parenthesis of its header: the step is taken for one that follows a
value (`Program.stepBody_needsBraces`).
-/

namespace DeskCalc

mutual

/-- The statement with braces around its bodies. -/
def Stmt.embraced : Stmt → Stmt
  | .simple s behind => .simple s behind
  | .block inside ss behind => .block inside (Stmt.embracedAll ss) behind
  | .ifThen c body => .ifThen c body.embraced
  | .ifElse c body other => .ifElse c body.embraced other.embraced
  | .whileLoop c body => .whileLoop c body.embraced
  | .forLoop first test next body => .forLoop first test next body.embraced

/-- The body with braces. -/
def Body.embraced : Body → Body
  | .braced before inside ss behind => .braced before inside (Stmt.embracedAll ss) behind
  | .bare before s => .braced before 0 [s.embraced] 0

/-- The statements with braces around their bodies. -/
def Stmt.embracedAll : List Stmt → List Stmt
  | [] => []
  | s :: ss => s.embraced :: Stmt.embracedAll ss

end

/-- Bodies with the same code have the same size. -/
theorem Body.size_congr {a b : Body} (h : ∀ start loop, a.layout start loop = b.layout start loop) :
    a.size = b.size := by
  rw [← a.length_layout 0 {}, h, b.length_layout]

mutual

/-- **Braces do not show in the code of a statement.** -/
theorem Stmt.layout_embraced (start : Nat) (loop : Targets) :
    (s : Stmt) → s.embraced.layout start loop = s.layout start loop
  | .simple _ _ => rfl
  | .block _ ss _ => by
    simp only [Stmt.embraced, Stmt.layout, Stmt.layout_embracedAll start loop ss]
  | .ifThen c body | .whileLoop c body | .forLoop _ _ _ body => by
    simp only [Stmt.embraced, Stmt.layout, Body.layout_embraced _ _ body,
      Body.size_congr fun _ _ => Body.layout_embraced _ _ body]
  | .ifElse c body other => by
    simp only [Stmt.embraced, Stmt.layout, Body.layout_embraced _ _ body,
      Body.layout_embraced _ _ other, Body.size_congr fun _ _ => Body.layout_embraced _ _ body,
      Body.size_congr fun _ _ => Body.layout_embraced _ _ other]

theorem Body.layout_embraced (start : Nat) (loop : Targets) :
    (b : Body) → b.embraced.layout start loop = b.layout start loop
  | .braced _ _ ss _ => by
    simp only [Body.embraced, Body.layout, Stmt.layout_embracedAll start loop ss]
  | .bare _ s => by
    simp only [Body.embraced, Body.layout, Stmt.layoutOfAll, List.append_nil,
      Stmt.layout_embraced start loop s]

theorem Stmt.layout_embracedAll (start : Nat) (loop : Targets) :
    (ss : List Stmt) → Stmt.layoutOfAll start loop (Stmt.embracedAll ss) =
      Stmt.layoutOfAll start loop ss
  | [] => rfl
  | s :: ss => by
    have hsize : s.embraced.size = s.size := by
      rw [← s.embraced.length_layout 0 {}, Stmt.layout_embraced 0 {} s, s.length_layout]
    simp only [Stmt.embracedAll, Stmt.layoutOfAll, Stmt.layout_embraced start loop s, hsize,
      Stmt.layout_embracedAll _ loop ss]

end

/-- A body with braces keeps its `else` to itself, and a step in it is on its own. -/
theorem Body.takesElse_embraced (b : Body) :
    b.embraced.takesElse = false ∧ b.embraced.leadsWithStep = false := by
  cases b <;> exact ⟨rfl, rfl⟩

mutual

/-- With braces around its bodies a statement can stand wherever it can without. -/
theorem Stmt.wellFormed_embraced {inLoop inFunc : Bool} :
    (s : Stmt) → s.wellFormed inLoop inFunc = true → s.embraced.wellFormed inLoop inFunc = true
  | .simple _ _, h => h
  | .block _ ss _, h => Stmt.wellFormed_embracedAll ss h
  | .ifThen c body, h | .whileLoop c body, h | .forLoop _ _ _ body, h => by
    simp only [Stmt.embraced, Stmt.wellFormed, Bool.and_eq_true] at h ⊢
    exact ⟨h.1, Body.wellFormed_embraced body h.2.1, by simp [body.takesElse_embraced]⟩
  | .ifElse c body other, h => by
    simp only [Stmt.embraced, Stmt.wellFormed, Bool.and_eq_true] at h ⊢
    exact ⟨⟨⟨h.1.1.1, Body.wellFormed_embraced body h.1.1.2.1, by simp [body.takesElse_embraced]⟩,
      by simp [body.takesElse_embraced]⟩, Body.wellFormed_embraced other h.2⟩

theorem Body.wellFormed_embraced {inLoop inFunc : Bool} :
    (b : Body) → b.wellFormed inLoop inFunc = true → b.embraced.wellFormed inLoop inFunc = true
  | .braced _ _ ss _, h => Stmt.wellFormed_embracedAll ss h
  | .bare _ s, h => by
    simp only [Body.wellFormed, Bool.and_eq_true] at h
    simp only [Body.embraced, Body.wellFormed, Stmt.allWellFormed, Bool.and_true]
    exact Stmt.wellFormed_embraced s h.1

theorem Stmt.wellFormed_embracedAll {inLoop inFunc : Bool} :
    (ss : List Stmt) → Stmt.allWellFormed inLoop inFunc ss = true →
      Stmt.allWellFormed inLoop inFunc (Stmt.embracedAll ss) = true
  | [], _ => rfl
  | s :: ss, h => by
    simp only [Stmt.embracedAll, Stmt.allWellFormed, Bool.and_eq_true] at h ⊢
    exact ⟨Stmt.wellFormed_embraced s h.1, Stmt.wellFormed_embracedAll ss h.2⟩

end

/-- **Braces around bodies are redundant**, whatever the statements are as long as they are
well-formed: a body is refused without braces only if `Body.leadsWithStep` says so. -/
theorem Session.laysOut_embraced {options : Options} (hlenient : options.strictness = .lenient)
    {scope : Scope} {ss : List Stmt} {text braced : String}
    (hwords : (readTokens .lenient text).map (·.token.word) = scope.words ss)
    (hbraced : (readTokens .lenient braced).map (·.token.word) = scope.words (Stmt.embracedAll ss))
    (hss : Stmt.allWellFormed false scope.inFunc ss = true) (hparams : scope.Distinct)
    (hroom : ∀ t ∈ [text, braced], ∀ e, ((new options).compile t).1 = .error e → ¬e.IsShortage) :
    LaysOut options text scope.name (scope.layout ss) ∧
      LaysOut options braced scope.name (scope.layout ss) := by
  have hlayout : scope.layout (Stmt.embracedAll ss) = scope.layout ss := by
    cases scope <;> simp only [Scope.layout, Stmt.layout_embracedAll]
  refine ⟨laysOut_of_words hlenient hwords hss hparams (hroom text (by simp)), ?_⟩
  rw [← hlayout]
  exact laysOut_of_words hlenient hbraced (Stmt.wellFormed_embracedAll ss hss) hparams
    (hroom braced (by simp))

/-- Behind a header a step needs braces around it, and on a line of its own it does not. -/
theorem Program.stepBody_needsBraces :
    (ofSource "if (1) ++x\n" {}).toOption = none ∧
      (ofSource "if (1) \x7b ++x \x7d\n" {}).toOption.isSome = true ∧
      (ofSource "++x\n" {}).toOption.isSome = true := by
  decide +kernel

end DeskCalc
