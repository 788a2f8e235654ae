import DeskCalc.Proofs.Brackets.Phrases

/-!
# Parameters and locals

A parameter is written as a name with a star before it or brackets behind it, and a local stands for
it in a function (`Program.Binds`). The locals behind `auto` are written in the same way.
-/

namespace DeskCalc

/-- Words that are no brackets and do not compare. -/
theorem Mild.of_words {mode : Strictness} {v : List Token} {ws : List Word}
    (h : v.map Token.word = ws)
    (hws : ∀ w ∈ ws, w.1.isOther = true ∧ w.1.compares = false) : Mild mode (kindsOf v) := by
  have hk : ∀ k ∈ kindsOf v, k.isOther = true ∧ k.compares = false := by
    intro k hk
    obtain ⟨t, ht, rfl, -⟩ := mem_kindsOf hk
    simpa using hws t.word (h ▸ List.mem_map_of_mem ht)
  exact ⟨.of_forall fun k h => (hk k h).1, fun _ k h => (hk k h).2⟩

/-- A parameter as it is written. -/
structure Parameter where
  name : String
  kind : LocalKind
deriving DecidableEq, Repr

namespace Parameter

/-- The words of a parameter: a star stands before a reference, brackets stand behind an array. -/
def words (a : Parameter) : List Word :=
  (if a.kind == .reference then [Symbol.word (.arith .multiply)] else []) ++ (.name, a.name) ::
    if a.kind.isArray then [Symbol.word .leftBracket, Symbol.word .rightBracket] else []

/-- The words of some parameters with commas between them. -/
def wordsOfAll : List Parameter → List Word
  | [] => []
  | [a] => a.words
  | a :: as => a.words ++ Symbol.word .comma :: wordsOfAll as

variable {a : Parameter} {as : List Parameter} {comma comma' : Bool} {v w : List Token}

theorem wordsOfAll_cons (a : Parameter) (as : List Parameter) : wordsOfAll (a :: as) =
    a.words ++ ((if !as.isEmpty then [Symbol.word .comma] else []) ++ wordsOfAll as) := by
  cases as <;> simp [wordsOfAll]

theorem wordsOfAll_concat (h : as ≠ []) (a : Parameter) :
    wordsOfAll (as ++ [a]) = wordsOfAll as ++ Symbol.word .comma :: a.words := by
  induction as with
  | nil => exact absurd rfl h
  | cons b as ih =>
    rw [List.cons_append, wordsOfAll_cons, wordsOfAll_cons]
    cases as with
    | nil => simp [wordsOfAll]
    | cons c as =>
      rw [ih (List.cons_ne_nil c as)]
      simp

/-- Names, stars, brackets and commas are all there is. -/
theorem forall_wordsOfAll {R : Word → Prop} (hname : ∀ name, R (.name, name))
    (hsymbol : ∀ s ∈ [Symbol.arith .multiply, .leftBracket, .rightBracket, .comma], R s.word)
    (as : List Parameter) : ∀ w ∈ wordsOfAll as, R w := by
  induction as with
  | nil => exact List.forall_mem_nil _
  | cons a as ih =>
    simp only [List.forall_mem_cons] at hsymbol
    obtain ⟨hstar, hopen, hclose, hcomma, -⟩ := hsymbol
    have hbrackets := List.forall_mem_cons.2 ⟨hopen, List.forall_mem_singleton.2 hclose⟩
    rw [wordsOfAll_cons, List.forall_mem_append, List.forall_mem_append]
    refine ⟨?_, ?_, ih⟩
    · rcases a with ⟨name, _ | _ | _⟩
      · exact List.forall_mem_singleton.2 (hname name)
      · exact List.forall_mem_cons.2 ⟨hname name, hbrackets⟩
      · exact List.forall_mem_cons.2 ⟨hstar, List.forall_mem_cons.2 ⟨hname name, hbrackets⟩⟩
    · split
      · exact List.forall_mem_singleton.2 hcomma
      · exact List.forall_mem_nil _

theorem ne_nil_of_words {ws : List Word} (h : w.map Token.word = a.words ++ ws) : w ≠ [] := by
  rintro rfl
  simp [words] at h

/-- The tokens are those of some parameters, and a comma stands behind them if `comma`. -/
structure Spelt (as : List Parameter) (comma : Bool) (v : List Token) : Prop where
  words : v.map Token.word = wordsOfAll as ++ if comma then [Symbol.word .comma] else []
  listed : comma = true → as ≠ []

theorem Spelt.mild {mode : Strictness} (h : Spelt as false v) : Mild mode (kindsOf v) := by
  have hother := forall_wordsOfAll (R := fun w => w.1.isOther = true ∧ w.1.compares = false)
    (fun _ => ⟨rfl, rfl⟩) (by decide) as
  exact .of_words (h.words.trans (List.append_nil _)) hother

theorem Spelt.nil : Spelt [] false [] := ⟨rfl, by simp⟩

/-- Between two parameters there is a comma. -/
theorem Spelt.length_le (h : Spelt as comma v) : 2 * as.length + comma.toNat ≤ v.length + 1 := by
  have hall (as : List Parameter) : 2 * as.length ≤ (wordsOfAll as).length + 1 := by
    induction as with
    | nil => simp
    | cons a as ih =>
      have hpos : 0 < a.words.length := List.length_pos_of_mem (a := (.name, a.name))
        (List.mem_append_right _ List.mem_cons_self)
      rw [wordsOfAll_cons, List.length_append, List.length_append]
      cases as with
      | nil =>
        simp only [List.length_cons, List.length_nil]
        omega
      | cons b as =>
        simp only [List.isEmpty_cons, Bool.not_false, if_true, List.length_cons, List.length_nil] at *
        omega
  have hlength := congrArg List.length h.words
  have := hall as
  cases comma <;> simp at hlength ⊢ <;> omega

/-- Behind a comma, or at the beginning, another parameter comes. -/
theorem Spelt.snoc (h : Spelt as comma v) (hnext : as ≠ [] → comma = true)
    (hw : w.map Token.word = a.words ++ if comma' then [Symbol.word .comma] else []) :
    Spelt (as ++ [a]) comma' (v ++ w) := by
  refine ⟨?_, fun _ => by simp⟩
  rw [List.map_append, h.words, hw]
  by_cases has : as = []
  · have hcomma : comma = false := Bool.eq_false_iff.2 fun hcomma => h.listed hcomma has
    simp [has, hcomma, wordsOfAll]
  · simp [wordsOfAll_concat has, hnext has]

end Parameter

namespace Program

variable {P Q : Program} {a : Parameter} {l : Local}

/-- In the program `P` the local stands for the parameter. -/
def Binds (P : Program) (a : Parameter) (l : Local) : Prop :=
  l.kind = a.kind ∧ (if a.kind.isArray then P.arrays else P.vars).get? l.index = some a.name

theorem Binds.mono (h : P.Grows Q) (hl : P.Binds a l) : Q.Binds a l := by
  refine ⟨hl.1, ?_⟩
  have hindex := hl.2
  split at hindex
  · next hk =>
    rw [if_pos hk]
    exact h.arrays _ _ hindex
  · next hk =>
    rw [if_neg hk]
    exact h.vars _ _ hindex

theorem Binds.of_at {i : Nat} (h : (TableEntry.ofLocal a.kind a.name).At P i) :
    P.Binds a ⟨i, a.kind⟩ := by
  rw [TableEntry.ofLocal] at h
  refine ⟨rfl, ?_⟩
  split at h
  · next hk => rwa [if_pos hk]
  · next hk => rwa [if_neg hk]

end Program

end DeskCalc
