import DeskCalc.Proofs.Tokens

/-!
# The same text under two strictnesses

Under any strictness a text has the same tokens, up to the first piece that a strict reading
refuses. There a reading with warnings has a token with a warning: `Reading.Abreast` compares the
tokens of a text that is read with warnings to those of another reading.
-/

namespace DeskCalc

namespace Scan

/-- A keyword that POSIX has nothing against is one of its own. -/
theorem isPosix_of_cut {cs : List Char} {c : Cut} {k : Keyword} (h : cut cs = some c)
    (hc : c.shape = .token (.keyword k) none) : k.isPosix = true := by
  cases cs with
  | nil => simp [cut] at h
  | cons d ds =>
    simp only [cut] at h
    repeat' split at h
    all_goals cases h
    · cases hc
    · cases hc
    · unfold cutString at hc
      split at hc <;> cases hc
    · cases hc
    · cases hc
    · simp only [wordShape] at hc
      split at hc
      · next k' _ =>
        simp only [Shape.token.injEq, Token.Kind.keyword.injEq, ite_eq_left_iff] at hc
        obtain ⟨rfl, hposix⟩ := hc
        exact Decidable.of_not_not fun hk => by cases hposix hk
      · cases hc
    · unfold cutSymbol at hc
      split at hc
      · split at hc <;> cases hc
      · split at hc <;> cases hc

theorem isPosix_of_mem_scanFrom {n : Nat} {p : Position} {cs : List Char} {piece : Piece}
    {k : Keyword} (h : piece ∈ scanFrom n p cs) (hk : piece.shape = .token (.keyword k) none) :
    k.isPosix = true := by
  induction n generalizing p cs with
  | zero =>
    cases List.mem_singleton.1 h
    cases hk
  | succ n ih =>
    simp only [scanFrom] at h
    split at h
    · cases List.mem_singleton.1 h
      cases hk
    · next c hc =>
      rcases List.mem_cons.1 h with rfl | h
      · exact isPosix_of_cut hc hk
      · exact ih h

end Scan

namespace Reading

/-- The tokens of a text read with warnings, and those of the same text read under `μ`. Where a
strict reading is refused nothing is known of what is behind. -/
inductive Abreast (μ : Strictness) : List Reading → List Reading → Prop
  | nil : Abreast μ [] []
  | cons {r R : Reading} {rs Rs : List Reading} (token : R.token = r.token)
      (error : R.error = r.error)
      (clean : μ = .strict → r.warnings = [] ∧ r.token.kind ≠ .keyword .elseBranch)
      (rest : Abreast μ rs Rs) : Abreast μ (r :: rs) (R :: Rs)
  | refused {r R : Reading} {rs Rs : List Reading} (mode : μ = .strict) (warned : r.warnings ≠ [])
      (error : R.error.isSome = true) : Abreast μ (r :: rs) (R :: Rs)

variable {μ : Strictness} {pending pending' : List Notice} {ps : List Scan.Piece}

theorem Abreast.length_eq {rs Rs : List Reading} (h : Abreast μ rs Rs) (hμ : μ ≠ .strict) :
    Rs.length = rs.length := by
  induction h with
  | nil => rfl
  | cons _ _ _ _ ih => rw [List.length_cons, List.length_cons, ih]
  | refused hμ' => exact absurd hμ' hμ

/-- A warning is handed over with the next token. -/
theorem exists_ofPieces_eq_cons (hpending : pending ≠ [])
    (hps : ∃ p ∈ ps, ∃ kind v, p.shape = .token kind v) :
    ∃ r rs, ofPieces .warn pending ps = r :: rs ∧ r.warnings ≠ [] := by
  induction ps generalizing pending with
  | nil =>
    obtain ⟨p, hp, -⟩ := hps
    cases hp
  | cons p ps ih =>
    -- where the piece is a comment the token is behind it
    have hrest (v : Option Violation) (hv : p.shape = .comment v) :
        ∃ q ∈ ps, ∃ kind v, q.shape = .token kind v := by
      obtain ⟨q, hq, kind, w, hw⟩ := hps
      rcases List.mem_cons.1 hq with rfl | hq
      · rw [hv] at hw
        cases hw
      · exact ⟨q, hq, kind, w, hw⟩
    simp only [ofPieces]
    split
    · exact ⟨_, _, rfl, hpending⟩
    · exact ⟨_, _, rfl, hpending⟩
    · exact ⟨_, _, rfl, by simp [accept]⟩
    · next hv => exact ih hpending (hrest _ hv)
    · next hv => exact ih (by simp) (hrest _ hv)

theorem abreast_ofPieces (hpending : μ = .strict → pending = [])
    (hlast : ∃ qs q, ps = qs ++ [q] ∧ ∃ kind v, q.shape = .token kind v)
    (hposix : ∀ p ∈ ps, ∀ k, p.shape = .token (.keyword k) none → k.isPosix = true) :
    Abreast μ (ofPieces .warn pending ps) (ofPieces μ pending' ps) := by
  induction ps generalizing pending pending' with
  | nil => exact .nil
  | cons p ps ih =>
    have hposix' := fun q hq => hposix q (List.mem_cons_of_mem _ hq)
    -- the last piece is among the rest, unless it is this one
    have hrest : (ps = [] ∧ ∃ kind v, p.shape = .token kind v) ∨
        ∃ qs q, ps = qs ++ [q] ∧ ∃ kind v, q.shape = .token kind v := by
      obtain ⟨qs, q, hps, hq⟩ := hlast
      cases qs with
      | nil =>
        obtain ⟨rfl, rfl⟩ := List.cons.inj hps
        exact .inl ⟨rfl, hq⟩
      | cons q' qs =>
        obtain ⟨rfl, rfl⟩ := List.cons.inj hps
        exact .inr ⟨qs, q, rfl, hq⟩
    have htail (pending pending' : List Notice) (hpending : μ = .strict → pending = []) :
        Abreast μ (ofPieces .warn pending ps) (ofPieces μ pending' ps) := by
      rcases hrest with ⟨rfl, -⟩ | hrest
      · exact .nil
      · exact ih hpending hrest hposix'
    have hcomment {v : Option Violation} (hv : p.shape = .comment v) :
        ∃ q ∈ ps, ∃ kind v, q.shape = .token kind v := by
      rcases hrest with ⟨-, kind, w, hw⟩ | ⟨qs, q, rfl, hq⟩
      · rw [hv] at hw
        cases hw
      · exact ⟨q, List.mem_append_right _ List.mem_cons_self, hq⟩
    simp only [ofPieces]
    split
    · exact .cons rfl rfl (fun hμ => ⟨hpending hμ, by rintro ⟨⟩⟩) (htail [] [] fun _ => rfl)
    · next kind hshape =>
      refine .cons rfl rfl (fun hμ => ⟨hpending hμ, ?_⟩) (htail [] [] fun _ => rfl)
      rintro rfl
      cases hposix p List.mem_cons_self _ hshape
    · next kind v _ =>
      cases μ with
      | lenient => exact .cons rfl rfl (by simp) (htail [] [] (by simp))
      | warn => exact .cons rfl rfl (by simp) (htail [] [] (by simp))
      | strict => exact .refused rfl (by simp [accept]) rfl
    · exact htail _ _ hpending
    · next v hv =>
      cases μ with
      | lenient => exact htail _ _ (by simp)
      | warn => exact htail _ _ (by simp)
      | strict =>
        have hpending : pending ++ [⟨.posix v p.text, p.span⟩] ≠ [] := by simp
        obtain ⟨r, rs, hr, hwarned⟩ := exists_ofPieces_eq_cons hpending (hcomment hv)
        rw [hr]
        exact .refused rfl hwarned rfl

end Reading

/-- **A text read with warnings has the tokens of the same text under any strictness.** -/
theorem abreast_readTokens (μ : Strictness) (source : String) :
    Reading.Abreast μ (readTokens .warn source) (readTokens μ source) := by
  refine Reading.abreast_ofPieces (fun _ => rfl) ?_ fun p hp k => Scan.isPosix_of_mem_scanFrom hp
  obtain ⟨ps, q, hps, -⟩ := Scan.exists_scanFrom_eq (source.toList.length + 1) ⟨1, 1⟩ source.toList
  exact ⟨ps, _, hps, .eof, none, rfl⟩

end DeskCalc
