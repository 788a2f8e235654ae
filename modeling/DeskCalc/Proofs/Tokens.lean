import DeskCalc.Proofs.Progress

/-!
# The tokens of a text

The tokens that `readTokens` finds in a text end with the end of the text, an error is carried by
an error token, names are spelled as names, and there are at most as many of them as characters
and one more. So a pass that starts a chunk is in order (`inOrder_start`).
-/

namespace DeskCalc

/-- A name of the source: a letter, with letters, digits and underscores behind it. -/
def IsName (name : String) : Prop :=
  ∃ c cs, name = String.ofList (c :: cs) ∧ Scan.isNameStart c = true ∧
    ∀ d ∈ cs, Scan.isNameChar d = true

/-- No name is reserved, because names begin with a letter. -/
theorem IsName.ne {name : String} (h : IsName name) : name ≠ "(main)" ∧ name ≠ "(read)" := by
  obtain ⟨c, cs, rfl, hc, -⟩ := h
  have hhead (t : String) (ht : t.toList.head? = some '(') : String.ofList (c :: cs) ≠ t := by
    rintro rfl
    rw [String.toList_ofList] at ht
    cases ht
    cases hc
  exact ⟨hhead "(main)" rfl, hhead "(read)" rfl⟩

namespace Scan

variable {cs : List Char}

/-- A piece that is a name is spelled as one. -/
def Piece.WellNamed (p : Piece) : Prop := ∀ v, p.shape = .token .name v → IsName p.text

theorem cutString_shape_ne (cs : List Char) (v : Option Violation) :
    (cutString cs).shape ≠ .token .name v := by
  unfold cutString
  split <;> nofun

theorem cutSymbol_shape_ne (c : Char) (cs : List Char) (v : Option Violation) :
    (cutSymbol c cs).shape ≠ .token .name v := by
  unfold cutSymbol
  split
  · split <;> nofun
  · split <;> nofun

theorem isName_of_cut {c : Cut} {v : Option Violation} (h : cut cs = some c)
    (hc : c.shape = .token .name v) : IsName (String.ofList c.taken) := by
  cases cs with
  | nil => simp [cut] at h
  | cons d ds =>
    simp only [cut] at h
    repeat' split at h
    all_goals cases h
    · cases hc
    · cases hc
    · exact absurd hc (cutString_shape_ne ds v)
    · cases hc
    · cases hc
    · next hd => exact ⟨d, _, rfl, hd, fun _ he => List.all_eq_true.1 List.all_takeWhile _ he⟩
    · exact absurd hc (cutSymbol_shape_ne d ds v)

theorem shape_ne_eof {c : Cut} (h : cut cs = some c) (v : Option Violation) :
    c.shape ≠ .token .eof v := by
  cases cs with
  | nil => simp [cut] at h
  | cons d ds =>
    simp only [cut] at h
    repeat' split at h
    all_goals cases h
    · rintro ⟨⟩
    · rintro ⟨⟩
    · unfold cutString
      split <;> rintro ⟨⟩
    · rintro ⟨⟩
    · rintro ⟨⟩
    · simp only [wordShape]
      split <;> rintro ⟨⟩
    · unfold cutSymbol
      split
      · split <;> rintro ⟨⟩
      · split <;> rintro ⟨⟩

/-- The end of the text is the last piece and no other. -/
theorem exists_scanFrom_eq (n : Nat) (p : Position) (cs : List Char) :
    ∃ ps q, scanFrom n p cs = ps ++ [endPiece q] ∧ ∀ r ∈ ps, ∀ v, r.shape ≠ .token .eof v := by
  induction n generalizing p cs with
  | zero => exact ⟨[], p, rfl, by simp⟩
  | succ n ih =>
    simp only [scanFrom]
    split
    · exact ⟨[], _, rfl, by simp⟩
    · next c hc =>
      obtain ⟨ps, q, h, hps⟩ := ih ((p.through (splitBlanks cs).1).through c.taken) c.rest
      refine ⟨_ :: ps, q, by rw [h, List.cons_append], fun r hr => ?_⟩
      rcases List.mem_cons.1 hr with rfl | hr
      · exact shape_ne_eof hc
      · exact hps r hr

/-- A piece takes a character, so that there are not more pieces than characters. -/
theorem length_scanFrom_le (n : Nat) (p : Position) (cs : List Char) :
    (scanFrom n p cs).length ≤ cs.length + 1 := by
  induction n generalizing p cs with
  | zero => simp [scanFrom]
  | succ n ih =>
    have hblanks := congrArg List.length (splitBlanks_append cs)
    simp only [scanFrom]
    split
    · simp
    · next c hc =>
      have hrest := length_rest_lt hc
      have := ih ((p.through (splitBlanks cs).1).through c.taken) c.rest
      rw [List.length_append] at hblanks
      rw [List.length_cons]
      omega

theorem wellNamed_of_mem_scanFrom {n : Nat} {p : Position} {piece : Piece}
    (h : piece ∈ scanFrom n p cs) : piece.WellNamed := by
  induction n generalizing p cs with
  | zero =>
    cases List.mem_singleton.1 h
    exact nofun
  | succ n ih =>
    simp only [scanFrom] at h
    split at h
    · cases List.mem_singleton.1 h
      exact nofun
    · next c hc =>
      rcases List.mem_cons.1 h with rfl | h
      · exact fun v hv => isName_of_cut hc hv
      · exact ih h

end Scan

namespace Reading

variable {mode : Strictness} {pending : List Notice} {pieces : List Scan.Piece} {r : Reading}

/-- How a piece is read: not at all, as an error, or as a token. -/
theorem ofPieces_cons (mode : Strictness) (pending : List Notice) (p : Scan.Piece)
    (pieces : List Scan.Piece) :
    (∃ pending', ofPieces mode pending (p :: pieces) = ofPieces mode pending' pieces) ∨
      ∃ r, ofPieces mode pending (p :: pieces) = r :: ofPieces mode [] pieces ∧
        ((∃ warnings flaw, r = refuse warnings flaw p.span) ∨
          ∃ warnings kind v, p.shape = .token kind v ∧ r = accept warnings kind p) := by
  rw [ofPieces]
  split
  · exact .inr ⟨_, rfl, .inl ⟨_, _, rfl⟩⟩
  · next hp => exact .inr ⟨_, rfl, .inr ⟨_, _, _, hp, rfl⟩⟩
  · next hp =>
    cases mode with
    | lenient => exact .inr ⟨_, rfl, .inr ⟨_, _, _, hp, rfl⟩⟩
    | warn => exact .inr ⟨_, rfl, .inr ⟨_, _, _, hp, rfl⟩⟩
    | strict => exact .inr ⟨_, rfl, .inl ⟨_, _, rfl⟩⟩
  · exact .inl ⟨_, rfl⟩
  · cases mode with
    | lenient => exact .inl ⟨_, rfl⟩
    | warn => exact .inl ⟨_, rfl⟩
    | strict => exact .inr ⟨_, rfl, .inl ⟨_, _, rfl⟩⟩

/-- What holds of everything a piece is read as holds of all readings. -/
theorem forall_ofPieces {P : Reading → Prop}
    (hrefuse : ∀ warnings flaw, ∀ p ∈ pieces, P (refuse warnings flaw p.span))
    (haccept : ∀ warnings kind v, ∀ p ∈ pieces, p.shape = .token kind v →
      P (accept warnings kind p)) (hr : r ∈ ofPieces mode pending pieces) : P r := by
  induction pieces generalizing pending with
  | nil => cases hr
  | cons p pieces ih =>
    have ih' {pending : List Notice} (h : r ∈ ofPieces mode pending pieces) : P r :=
      ih (fun w f q hq => hrefuse w f q (List.mem_cons_of_mem _ hq))
        (fun w k v q hq => haccept w k v q (List.mem_cons_of_mem _ hq)) h
    rcases ofPieces_cons mode pending p pieces with ⟨_, h⟩ | ⟨r', h, hr'⟩
    · rw [h] at hr
      exact ih' hr
    · rw [h] at hr
      rcases List.mem_cons.1 hr with rfl | hr
      · rcases hr' with ⟨_, _, rfl⟩ | ⟨_, _, _, hp, rfl⟩
        · exact hrefuse _ _ p List.mem_cons_self
        · exact haccept _ _ _ p List.mem_cons_self hp
      · exact ih' hr

theorem length_ofPieces_le (mode : Strictness) (pending : List Notice)
    (pieces : List Scan.Piece) : (ofPieces mode pending pieces).length ≤ pieces.length := by
  induction pieces generalizing pending with
  | nil => exact Nat.le_refl _
  | cons p pieces ih =>
    rw [List.length_cons]
    rcases ofPieces_cons mode pending p pieces with ⟨pending', h⟩ | ⟨r, h, -⟩
    · have := ih pending'
      rw [h]
      omega
    · have := ih []
      rw [h, List.length_cons]
      omega

/-- What is not the end of the text is not read as such. -/
theorem exists_ofPieces_eq (mode : Strictness) (pending : List Notice)
    (h : ∀ p ∈ pieces, ∀ v, p.shape ≠ .token .eof v) (q : Scan.Position) :
    ∃ rs r, ofPieces mode pending (pieces ++ [Scan.endPiece q]) = rs ++ [r] ∧
      r.token.kind = .eof ∧ ∀ s ∈ rs, s.token.kind ≠ .eof := by
  induction pieces generalizing pending with
  | nil => exact ⟨[], accept pending .eof (Scan.endPiece q), rfl, rfl, by simp⟩
  | cons p pieces ih =>
    have ih' (pending : List Notice) := ih pending fun p hp => h p (List.mem_cons_of_mem _ hp)
    rw [List.cons_append]
    rcases ofPieces_cons mode pending p (pieces ++ [Scan.endPiece q]) with
      ⟨pending', heq⟩ | ⟨r, heq, hr⟩
    · rw [heq]
      exact ih' pending'
    · obtain ⟨rs, last, hlast, heof, hrs⟩ := ih' []
      refine ⟨r :: rs, last, by rw [heq, hlast, List.cons_append], heof, fun s hs => ?_⟩
      rcases List.mem_cons.1 hs with rfl | hs
      · rcases hr with ⟨_, _, rfl⟩ | ⟨_, kind, v, hp, rfl⟩
        · nofun
        · rintro rfl
          exact h p List.mem_cons_self v hp
      · exact hrs s hs

end Reading

/-- The end of the text is the last token and no other. -/
theorem exists_readTokens_eq (mode : Strictness) (source : String) :
    ∃ rs r, readTokens mode source = rs ++ [r] ∧ r.token.kind = .eof ∧
      ∀ s ∈ rs, s.token.kind ≠ .eof := by
  obtain ⟨ps, q, hps, hne⟩ :=
    Scan.exists_scanFrom_eq (source.toList.length + 1) ⟨1, 1⟩ source.toList
  simp only [readTokens, scan, hps]
  exact Reading.exists_ofPieces_eq mode [] hne q

theorem length_readTokens_le (mode : Strictness) (source : String) :
    (readTokens mode source).length ≤ source.toList.length + 1 :=
  Nat.le_trans (Reading.length_ofPieces_le _ _ _) (Scan.length_scanFrom_le _ _ _)

/-- The names in a text are spelled as names. -/
theorem isName_of_mem_start {s : Session} {source : String} {t : Token}
    (ht : t ∈ (Pass.start s source).rest) (hname : t.kind = .name) : IsName t.text := by
  rcases List.mem_cons.1 ht with rfl | ht
  · cases hname
  · obtain ⟨r, hr, rfl⟩ := List.mem_map.1 ht
    refine Reading.forall_ofPieces (P := fun r => r.token.kind = .name → IsName r.token.text)
      ?_ ?_ hr hname
    · intro _ _ _ _ hk
      cases hk
    · intro _ kind v p hp hshape hk
      cases (show kind = .name from hk)
      exact Scan.wellNamed_of_mem_scanFrom hp v hshape

/-- **A pass that starts a chunk is in order.** -/
theorem inOrder_start {s : Session} {f : Function} (hf : s.program.function? s.target = some f)
    (source : String) : (Pass.start s source).InOrder where
  ended := by
    obtain ⟨rs, r, hrs, heof, -⟩ := exists_readTokens_eq s.strictness source
    refine ⟨r.token, ?_, heof⟩
    simp only [Pass.rest, Pass.start, hrs, List.map_append, List.map_cons, List.map_nil,
      ← List.cons_append, List.getLast?_concat]
  flawed r hr := by
    refine Reading.forall_ofPieces (P := fun r => r.error.isSome → r.token.kind = .error) ?_ ?_ hr
    · intros
      rfl
    · rintro _ _ _ _ _ _ ⟨⟩
  named t ht hname := (isName_of_mem_start ht hname).ne
  function := ⟨f, hf⟩

end DeskCalc
