import DeskCalc.Proofs.Waiting

/-!
# Where a text may compare

POSIX allows one comparison in a condition and none anywhere else. The tokens of a text are
`Confined` if this is so: what compares is in the condition of an `if`, a `while` or a `for`, and
such a condition is `Restrained`, so that it compares once at most, and not inside an argument or a
subscript. The grammar of expressions tells which tokens these are.
-/

namespace DeskCalc

variable {w : List Token.Kind}

/-- The token compares. -/
def Token.Kind.compares : Token.Kind → Bool
  | .symbol (.relation _) => true
  | _ => false

/-- How often some words compare. -/
def comparisons (w : List Word) : Nat := w.countP (·.1.compares)

@[simp] theorem comparisons_nil : comparisons [] = 0 := rfl

@[simp] theorem comparisons_cons (k : Word) (w : List Word) :
    comparisons (k :: w) = comparisons w + if k.1.compares then 1 else 0 := List.countP_cons

@[simp] theorem comparisons_append (v w : List Word) :
    comparisons (v ++ w) = comparisons v + comparisons w := List.countP_append

theorem compares_of_comparisons {w : List Word} (h : comparisons w = 0) {k : Token.Kind}
    (hk : k ∈ w.map (·.1)) : k.compares = false := by
  obtain ⟨word, hword, rfl⟩ := List.mem_map.1 hk
  simpa using List.countP_eq_zero.1 h word hword

@[simp] theorem Operator.compares_word (op : Operator) :
    op.word.1.compares = op.isRelational := by cases op <;> rfl

namespace Expr

/-- No argument and no subscript compares. -/
def isDirect : Expr → Bool
  | elem _ e | unary _ e | scaleOf e => comparisons e.words == 0
  | call _ args => comparisons (wordsOfAll args) == 0
  | modexp a b c => comparisons a.words + comparisons b.words + comparisons c.words == 0
  | divmod a b _ => comparisons a.words + comparisons b.words == 0
  | preStep _ e | postStep e _ | trunc e | paren e | prefixed _ e => e.isDirect
  | binary _ left right => left.isDirect && right.isDirect
  | number _ | string _ | var _ | setting _ | whole _ | query _ => true

/-- What does not compare at all does not compare in an argument. -/
theorem isDirect_of_comparisons : (e : Expr) → comparisons e.words = 0 → e.isDirect = true
  | elem _ _, h | unary _ _, h | scaleOf _, h | call _ _, h | modexp _ _ _, h | divmod _ _ _, h => by
    simp_all [words, isDirect]
  | preStep _ e, h | postStep e _, h | trunc e, h | paren e, h | prefixed _ e, h =>
    isDirect_of_comparisons e (by simp_all [words])
  | binary _ left right, h => by
    simp only [words, comparisons_append, comparisons_cons] at h
    rw [isDirect, isDirect_of_comparisons left (by omega), isDirect_of_comparisons right (by omega)]
    rfl
  | number _, _ | string _, _ | var _, _ | setting _, _ | whole _, _ | query _, _ => rfl

/-- A condition that compares once at most, and not inside an argument or a subscript. -/
structure Restrained (e : Expr) : Prop where
  wellFormed : e.wellFormed false = true
  single : comparisons e.words ≤ 1
  direct : e.isDirect = true

/-- Where POSIX is enforced a condition may compare once, and nothing else may. -/
def Allowed (mode : Strictness) (condition : Bool) (e : Expr) : Prop :=
  mode = .strict → e.isDirect = true ∧ comparisons e.words ≤ if condition then 1 else 0

/-- The kinds of the words of an expression. -/
def kinds (e : Expr) : List Token.Kind := e.words.map (·.1)

end Expr

/-- The operand of the frame does not compare inside an argument or a subscript. -/
def Frame.isDirect : Frame → Bool
  | binary left _ => left.isDirect
  | _ => true

theorem isDirect_plugAll {fs : List Frame} (hfs : ∀ f ∈ fs, f.isDirect = true) {e : Expr}
    (he : e.isDirect = true) : (plugAll fs e).isDirect = true := by
  induction fs generalizing e with
  | nil => exact he
  | cons f fs ih =>
    refine ih (fun g hg => hfs g (List.mem_cons_of_mem _ hg)) ?_
    have hf := hfs f List.mem_cons_self
    cases f <;> simp_all [Frame.plug, Frame.isDirect, Expr.isDirect]

/-- What stands in place of a condition compares as POSIX allows it, and nothing else compares. -/
inductive Confined : List Token.Kind → Prop
  | nil : Confined []
  | other {k : Token.Kind} {w : List Token.Kind} (hk : k.compares = false) (h : Confined w) :
      Confined (k :: w)
  /-- The header of an `if` or a `while`. -/
  | header {k : Keyword} {e : Expr} {w : List Token.Kind} (hk : k = .ifBranch ∨ k = .whileLoop)
      (he : e.Restrained) (h : Confined w) :
      Confined (.keyword k :: .symbol .leftParen :: (e.kinds ++ .symbol .rightParen :: w))
  /-- The header of a `for`. -/
  | loop {first e last : Expr} {w : List Token.Kind} (hfirst : comparisons first.words = 0)
      (he : e.Restrained) (hlast : comparisons last.words = 0) (h : Confined w) :
      Confined (.keyword .forLoop :: .symbol .leftParen :: (first.kinds ++ .symbol .semicolon ::
        (e.kinds ++ .symbol .semicolon :: (last.kinds ++ .symbol .rightParen :: w))))

theorem confined_of_forall (h : ∀ k ∈ w, k.compares = false) : Confined w := by
  induction w with
  | nil => exact .nil
  | cons k w ih =>
    exact .other (h k List.mem_cons_self) (ih fun l hl => h l (List.mem_cons_of_mem _ hl))

theorem Confined.append {v : List Token.Kind} (hv : Confined v) (hw : Confined w) :
    Confined (v ++ w) := by
  induction hv with
  | nil => exact hw
  | other hk _ ih => exact .other hk ih
  | header hk he _ ih => simpa using Confined.header hk he ih
  | loop hfirst he hlast _ ih => simpa using Confined.loop hfirst he hlast ih

/-- Without a header nothing compares. -/
theorem Confined.compares_of_no_header (h : Confined w)
    (hw : ∀ k ∈ [Keyword.ifBranch, .whileLoop, .forLoop], .keyword k ∉ w) :
    ∀ k ∈ w, k.compares = false := by
  induction h with
  | nil => simp
  | other hk _ ih =>
    exact List.forall_mem_cons.2 ⟨hk, ih fun k hmem hk => hw k hmem (List.mem_cons_of_mem _ hk)⟩
  | header hk => rcases hk with rfl | rfl <;> simp at hw
  | loop => simp at hw

end DeskCalc
