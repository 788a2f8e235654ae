import DeskCalc.Proofs.Tokens

/-!
# Places in a text

A place is counted in lines, columns and bytes. None of these numbers gets larger than the number of
bytes of the text and one, so that they fit into 32 bits for every text whose bytes can be counted
with 32 bits (`Scan.fits`). This holds for the places between any two characters, which are the ones
that reading the text goes through, and so for the spans of all pieces.
-/

namespace DeskCalc.Scan

/-- Lines, columns and lengths are numbers below this bound. -/
def placeBound : Nat := 4294967296

theorem byteLength_append (cs ds : List Char) :
    byteLength (cs ++ ds) = byteLength cs + byteLength ds := by
  induction cs with
  | nil => simp [byteLength]
  | cons c cs ih => rw [List.cons_append, byteLength, ih, byteLength, Nat.add_assoc]

/-- A character has at least one byte. -/
theorem length_le_byteLength (cs : List Char) : cs.length ≤ byteLength cs := by
  induction cs with
  | nil => simp
  | cons c cs ih =>
    have := c.utf8Size_pos
    rw [byteLength, List.length_cons]
    omega

theorem Position.through_append (p : Position) (cs ds : List Char) :
    p.through (cs ++ ds) = (p.through cs).through ds :=
  List.foldl_append

/-- A line feed takes a byte and gives up the column, so that the line and the column together grow
by no more than the bytes. -/
theorem Position.through_le (p : Position) (hline : 1 ≤ p.line) (hcol : 1 ≤ p.col)
    (cs : List Char) :
    1 ≤ (p.through cs).line ∧ 1 ≤ (p.through cs).col ∧
      (p.through cs).line + (p.through cs).col ≤ p.line + p.col + byteLength cs := by
  induction cs generalizing p with
  | nil => simp [through, hline, hcol]
  | cons c cs ih =>
    have hpos := c.utf8Size_pos
    have hstep : 1 ≤ (p.step c).line ∧ 1 ≤ (p.step c).col ∧
        (p.step c).line + (p.step c).col ≤ p.line + p.col + c.utf8Size := by
      unfold step
      split
      · simp only
        omega
      · simp only
        omega
    obtain ⟨hl, hc, hle⟩ := ih (p.step c) hstep.1 hstep.2.1
    rw [byteLength]
    refine ⟨hl, hc, Nat.le_trans hle ?_⟩
    omega

/-- A piece stands at a place of the text, and its length is that of a part of the text. -/
theorem span_of_mem_scanFrom {n : Nat} {p : Position} {cs : List Char} {piece : Piece}
    (h : piece ∈ scanFrom n p cs) :
    ∃ before taken after, before ++ taken ++ after = cs ∧
      piece.span = (p.through before).span taken := by
  induction n generalizing p cs with
  | zero =>
    cases List.mem_singleton.1 h
    exact ⟨[], [], cs, rfl, rfl⟩
  | succ n ih =>
    have hblanks := splitBlanks_append cs
    simp only [scanFrom] at h
    split at h
    · cases List.mem_singleton.1 h
      exact ⟨(splitBlanks cs).1, [], (splitBlanks cs).2, by simpa using hblanks, rfl⟩
    · next c hc =>
      have htext := cut_append hc
      rcases List.mem_cons.1 h with rfl | h
      · exact ⟨(splitBlanks cs).1, c.taken, c.rest, by rw [List.append_assoc, htext, hblanks], rfl⟩
      · obtain ⟨before, taken, after, heq, hspan⟩ := ih h
        refine ⟨(splitBlanks cs).1 ++ c.taken ++ before, taken, after, ?_, ?_⟩
        · calc
            _ = (splitBlanks cs).1 ++ (c.taken ++ (before ++ taken ++ after)) := by
              simp only [List.append_assoc]
            _ = cs := by rw [heq, htext, hblanks]
        · rw [hspan, Position.through_append, Position.through_append]

/-- The numbers that count places of a text fit into 32 bits. -/
structure Fits (text : String) : Prop where
  /-- At the place behind any part of the text that starts it. -/
  places : ∀ cs, cs <+: text.toList → byteLength cs < placeBound ∧
    (Position.through ⟨1, 1⟩ cs).line < placeBound ∧ (Position.through ⟨1, 1⟩ cs).col < placeBound
  /-- In the span of each piece. -/
  spans : ∀ piece ∈ scan text, piece.span.line < placeBound ∧ piece.span.col < placeBound ∧
    piece.span.len < placeBound

/-- **Places are counted with 32 bits.** -/
theorem fits {text : String} (h : byteLength text.toList < placeBound - 1) : Fits text := by
  have hplaces (cs : List Char) (hcs : cs <+: text.toList) : byteLength cs < placeBound ∧
      (Position.through ⟨1, 1⟩ cs).line < placeBound ∧
      (Position.through ⟨1, 1⟩ cs).col < placeBound := by
    obtain ⟨ds, hds⟩ := hcs
    have hlen := byteLength_append cs ds
    rw [hds] at hlen
    obtain ⟨hl, hc, hle⟩ :=
      Position.through_le ⟨1, 1⟩ (Nat.le_refl 1) (Nat.le_refl 1) cs
    simp only at hle
    omega
  refine ⟨hplaces, fun piece hpiece => ?_⟩
  obtain ⟨before, taken, after, heq, hspan⟩ := span_of_mem_scanFrom hpiece
  obtain ⟨-, hline, hcol⟩ := hplaces before ⟨taken ++ after, by rw [← heq, List.append_assoc]⟩
  have hlen : byteLength taken < placeBound := by
    have hsum := congrArg byteLength heq
    rw [byteLength_append, byteLength_append] at hsum
    omega
  rw [hspan]
  exact ⟨hline, hcol, hlen⟩

end DeskCalc.Scan
