import DeskCalc.Proofs.Operands.Statements
import DeskCalc.Proofs.Positions
import Mathlib.Data.Nat.Digits.Defs

/-!
# Where the caret stands

A source is refused for one of its pieces, whatever session it is given to (`Compile.chunk_blames`).
The complaint shows the line on which the piece begins, and as many blanks before the caret as there
are bytes before the piece on that line (`Session.points_of_refused`). These are as many as there are
characters if each of them is one byte, and not otherwise.
-/

namespace DeskCalc

/-- A line of the text begins behind `earlier`, and `before` stands on it before the span. -/
structure Span.At (span : Span) (text earlier before after : List Char) : Prop where
  text : text = earlier ++ before ++ after
  begins : earlier = [] ∨ ['\n'] <:+ earlier
  inside : '\n' ∉ before
  line : span.line = earlier.count '\n' + 1
  col : span.col = Scan.byteLength before + 1

/-! ## Places and lines -/

namespace Text

open Scan

/-- The place behind `taken`, and the lines from there on, where `line` is known of the first line. -/
theorem exists_lineStart (taken after line : List Char) (p : Position)
    (hline : '\n' ∉ line) (hcol : p.col = byteLength line.reverse + 1) :
    ∃ earlier before, line.reverse ++ taken = earlier ++ before ∧
      (earlier = [] ∨ ['\n'] <:+ earlier) ∧ '\n' ∉ before ∧
      (p.through taken).line = p.line + earlier.count '\n' ∧
      (p.through taken).col = byteLength before + 1 ∧
      (linesFrom (taken ++ after) line).drop (earlier.count '\n') = linesFrom after before.reverse := by
  induction taken generalizing line p with
  | nil => exact ⟨[], line.reverse, List.append_nil _, .inl rfl, by simpa, rfl, hcol, by simp⟩
  | cons c taken ih =>
    by_cases hc : c = '\n'
    · subst hc
      obtain ⟨earlier, before, htext, hends, hin, hl, hcol, hlines⟩ :=
        ih [] (p.step '\n') List.not_mem_nil rfl
      have hcount : (line.reverse ++ '\n' :: earlier).count '\n' = earlier.count '\n' + 1 := by
        simp [List.count_eq_zero.2 hline]
      refine ⟨line.reverse ++ '\n' :: earlier, before, by simpa using htext, .inr ?_, hin, ?_, hcol, ?_⟩
      · rcases hends with rfl | ⟨front, rfl⟩
        · exact List.suffix_append ..
        · exact ⟨line.reverse ++ '\n' :: front, by simp⟩
      · rw [hcount, ← Nat.add_assoc, Nat.add_right_comm]
        exact hl
      · rw [hcount]
        simpa [linesFrom] using hlines
    · obtain ⟨earlier, before, htext, hends, hin, hl, hcol, hlines⟩ :=
        ih (c :: line) (p.step c) (by simp [Ne.symm hc, hline]) (by
          simp [Position.step, hc, byteLength_append, byteLength, hcol]; omega)
      refine ⟨earlier, before, by simpa using htext, hends, hin, ?_, hcol, ?_⟩
      · exact hl.trans (by simp [Position.step, hc])
      · simpa [linesFrom, hc] using hlines

/-- What stands before a place is a part of its line, or it is the line with a carriage return and
the place is the end of that line. -/
theorem before_of_head? {after line : List Char} (before : List Char)
    (h : (linesFrom after before.reverse).head? = some line) :
    before <+: line ∨ before = line ++ ['\r'] ∧ ['\n'] <+: after := by
  induction after generalizing before with
  | nil =>
    cases hb : before.reverse with
    | nil => simp [hb, linesFrom] at h
    | cons c cs =>
      rw [hb, linesFrom, ← hb, List.reverse_reverse] at h
      · exact .inl (Option.some.inj h ▸ List.prefix_refl _)
      · simp
  | cons c after ih =>
    rw [linesFrom] at h
    split at h
    · next hc =>
      cases h
      unfold dropReturn
      split
      · next rest hb =>
        exact .inr ⟨by rw [← List.reverse_reverse before, hb, List.reverse_cons], hc ▸ ⟨after, rfl⟩⟩
      · rw [List.reverse_reverse]
        exact .inl (List.prefix_refl _)
    · rcases ih (before ++ [c]) (by simpa using h) with hpre | ⟨heq, -⟩
      · exact .inl ((List.prefix_append ..).trans hpre)
      · exact .inl ((List.append_inj' heq rfl).1 ▸ List.prefix_refl _)

end Text

/-- **Every piece begins at a place of its text.** -/
theorem Scan.exists_at {source : String} {piece : Piece} (h : piece ∈ scan source) :
    ∃ earlier before after, piece.span.At source.toList earlier before after ∧
      ∀ line, (Text.lines source)[piece.span.line - 1]? = some line →
        before <+: line.toList ∨ before = line.toList ++ ['\r'] ∧ ['\n'] <+: after := by
  obtain ⟨front, taken, rest, htext, hspan⟩ := span_of_mem_scanFrom h
  obtain ⟨earlier, before, hfront, hends, hin, hl, hcol, hlines⟩ :=
    Text.exists_lineStart front (taken ++ rest) [] ⟨1, 1⟩ List.not_mem_nil rfl
  have hline : piece.span.line = earlier.count '\n' + 1 := by
    rw [hspan, Nat.add_comm]
    exact hl
  refine ⟨earlier, before, taken ++ rest, ⟨?_, hends, hin, hline, hspan ▸ hcol⟩, fun line hshown => ?_⟩
  · rw [← htext, ← hfront, List.append_assoc]
    rfl
  · rw [hline, Nat.add_sub_cancel, Text.lines, List.getElem?_map, Option.map_eq_some_iff] at hshown
    obtain ⟨cs, hcs, rfl⟩ := hshown
    rw [String.toList_ofList]
    refine Text.before_of_head? before ?_
    rw [← hlines, List.head?_drop, ← hcs, ← htext, List.append_assoc]

/-! ## What the source is refused for -/

namespace Compile

variable {S : Span → Prop}

/-- A name or a constant is refused for the span it was given with. -/
theorem span_of_enter {e : TableEntry} {span : Span} {P : Program} {d : Diagnostic}
    (h : e.enter span P = .error d) : d.span = span := by
  rw [TableEntry.eq_shortage_of_enter h]
  cases e <;> rfl

/-- What the source can be refused for has one of these spans. -/
def Located (S : Span → Prop) (p : Pass) : Prop := S p.token.span ∧
  ∀ r ∈ p.upcoming, S r.token.span ∧ ∀ n ∈ r.error, S n.toDiagnostic.span

theorem modifyFunction_located {p : Pass} (h : Located S p) (change : Function → Function) :
    Ensures (modifyFunction change) p (fun _ q => Located S q ∧ True) fun e _ => e.Blames S := by
  simp only [modifyFunction, ensures_bind, ensures_get, ensures_ite, ensures_set, ensures_throw]
  split
  · exact ⟨h, trivial⟩
  · trivial

/-- **The source is refused for one of the spans that lie ahead.** -/
def blaming (S : Span → Prop) : Stepwise where
  Pre := Located S
  Done _ _ := True
  Left e _ _ := e.Blames S
  Known := S
  Fit _ := True
  reads := true
  known h := ⟨h.1, fun r hr => (h.2 r hr).2⟩
  fit _ _ := trivial
  trans _ _ := trivial
  left _ _ he := he
  leave _ h := h
  done {p q} h hahead _ _ _ := by
    refine ⟨⟨?_, fun r hr => h.2 r (hahead.2 hr)⟩, trivial⟩
    rcases List.mem_cons.1 hahead.1 with ht | ht
    · exact ht ▸ h.1
    · obtain ⟨r, hr, hrt⟩ := List.mem_map.1 ht
      exact hrt ▸ (h.2 r hr).1
  emit h _ _ := modifyFunction_located h _
  enter {p} h e span _ hspan := by
    simp only [intern, ensures_bind, ensures_get]
    cases hk : e.enter span p.program with
    | ok r => exact ⟨h, trivial⟩
    | error d => exact (span_of_enter hk ▸ hspan : S d.span)
  suppressValue {p} h t := by
    simp only [Compile.suppressValue, function, here, putFunction, ensures_bind, ensures_get]
    split
    · simp only [ensures_pure]
      split <;> exact ⟨h, trivial⟩
    · trivial
  anyReads := rfl
  jump h _ _ _ := modifyFunction_located h _
  relabel h _ _ := ⟨h, trivial⟩

instance blaming_whole : Whole (blaming S) where
  shift _ := (blaming S).fine fun _ h => ⟨h, trivial⟩
  declare ht _ _ kind := by
    cases ht.1
    exact (blaming S).declareLocal trivial ht.2 fun _ _ _ h _ _ _ => ⟨h, trivial⟩
  count := (blaming S).fine fun _ h => modifyFunction_located h _
  target _ := (blaming S).fine fun _ h => ⟨h, trivial⟩
  returns _ := (blaming S).fine fun _ h => modifyFunction_located h _
  begins _ := (blaming S).fine fun _ h => modifyFunction_located h _
  opens := (blaming S).fine fun _ h => ⟨h, trivial⟩
  finishes := (blaming S).fine fun _ h => modifyFunction_located h _

theorem span_toDiagnostic (n : Notice) : n.toDiagnostic.span = n.span := by
  unfold Notice.toDiagnostic
  split <;> rfl

/-- **A chunk is refused for one of its pieces.** -/
theorem chunk_blames (s : Session) (source : String) : Ensures chunk (Pass.start s source)
    (fun _ _ => True) fun e _ => e.Blames fun span => ∃ piece ∈ scan source, piece.span = span := by
  let S (span : Span) : Prop := ∃ piece ∈ scan source, piece.span = span
  have hread {r : Reading} (hr : r ∈ readTokens s.strictness source) :
      S r.token.span ∧ ∀ n ∈ r.error, S n.toDiagnostic.span := by
    refine Reading.forall_ofPieces
      (P := fun r => S r.token.span ∧ ∀ n ∈ r.error, S n.toDiagnostic.span) ?_ ?_ hr
    · refine fun _ flaw piece hp => ⟨⟨piece, hp, rfl⟩, fun n hn => ⟨piece, hp, ?_⟩⟩
      cases hn
      rw [span_toDiagnostic]
    · exact fun _ _ _ piece hp _ => ⟨⟨piece, hp, rfl⟩, by rintro _ ⟨⟩⟩
  rw [chunk]
  simp only [Compile.advance, ensures_bind, ensures_get, Pass.start]
  split
  · next hnone =>
    obtain ⟨rs, r, hrs, -⟩ := exists_readTokens_eq s.strictness source
    simp [hrs] at hnone
  · next r rest hu =>
    rw [hu] at hread
    simp only [ensures_bind, ensures_set]
    split
    · next n hn => exact (hread List.mem_cons_self).2 n hn
    · rw [ensures_pure]
      refine ((blaming S).keeps ⟨(hread List.mem_cons_self).1, fun r' hr => ?_⟩).imp
        fun _ _ _ => trivial
      exact hread (List.mem_cons_of_mem _ hr)

end Compile

/-! ## The caret -/

theorem Scan.byteLength_eq_length_iff (cs : List Char) :
    byteLength cs = cs.length ↔ ∀ c ∈ cs, c.utf8Size = 1 := by
  induction cs with
  | nil => simp [byteLength]
  | cons c cs ih =>
    have hc := c.utf8Size_pos
    have hcs := length_le_byteLength cs
    rw [List.forall_mem_cons, ← ih, byteLength, List.length_cons]
    omega

namespace Diagnostic

/-- What stands before the caret. -/
def indent (d : Diagnostic) : String :=
  "     | " ++ String.ofList (List.replicate (d.span.col - 1) ' ')

/-- The complaint ends with the line, behind its gutter, and with the caret, which has the bytes of
`before` to its left, and a gutter. -/
structure Shows (d : Diagnostic) (source line : String) (before after : List Char) : Prop where
  rendered : d.render source = d.category.message ++ ": " ++ d.message ++
    ("\n" ++ gutter d.span.line ++ line ++ "\n" ++ d.indent ++ "^")
  line : before <+: line.toList ∨ before = line.toList ++ ['\r'] ∧ ['\n'] <+: after
  indent : d.indent.length = 7 + Scan.byteLength before
  aligned : d.span.line < 10000 → (d.indent.length = (gutter d.span.line).length + before.length ↔
    ∀ c ∈ before, c.utf8Size = 1)

/-- Where the complaint is about a line of the source, that line is shown. -/
def Points (d : Diagnostic) (source : String) : Prop :=
  ∃ earlier before after, d.span.At source.toList earlier before after ∧
    ∀ line, (Text.lines source)[d.span.line - 1]? = some line → d.Shows source line before after

/-- The gutter has one width up to the line 9999. -/
theorem length_gutter {line : Nat} (h : line < 10000) : (gutter line).length = 7 := by
  have hdigits : (toString line).length ≤ 4 := Nat.repr_length line 4 (by decide) h
  simp only [gutter, Text.padLeft, String.length_append, String.length_ofList, List.length_replicate,
    show " | ".length = 3 from rfl]
  omega

end Diagnostic

namespace Session

/-- **The caret stands as far to the right as there are bytes before the place of the complaint.** -/
theorem points_of_refused {s : Session} {source : String} {d : Diagnostic}
    (h : (s.compile source).1 = .error (.refused d)) : d.Points source := by
  obtain ⟨piece, hpiece, hspan⟩ : ∃ piece ∈ scan source, piece.span = d.span := by
    have hblames := Compile.chunk_blames s source
    cases hrun : Compile.chunk (Pass.start s source) with
    | ok status q =>
      rw [compile_of_ok hrun] at h
      cases h
    | error e q =>
      obtain ⟨t, ht⟩ := compile_of_error hrun
      rw [ht] at h
      cases h
      exact hblames.error hrun
  obtain ⟨earlier, before, after, hat, hline⟩ := Scan.exists_at hpiece
  rw [hspan] at hat hline
  have hindent : d.indent.length = 7 + Scan.byteLength before := by
    simp [Diagnostic.indent, hat.col, show "     | ".length = 7 from rfl]
  refine ⟨earlier, before, after, hat, fun line hshown =>
    ⟨?_, hline line hshown, hindent, fun hsmall => ?_⟩⟩
  · have hbreak : "\n     | " = "\n" ++ "     | " := rfl
    simp only [Diagnostic.render, hshown, Diagnostic.indent, hbreak, String.append_assoc]
  · rw [hindent, Diagnostic.length_gutter hsmall, ← Scan.byteLength_eq_length_iff]
    omega

/-- The place is behind a comment that ends on its line. -/
theorem points_behind_comment :
    ((new {}).compile "/* é\n*/ )\n").1 =
      .error (.refused ⟨.unexpectedToken, ⟨2, 4, 1⟩, some "')'"⟩) ∧
    Diagnostic.Points ⟨.unexpectedToken, ⟨2, 4, 1⟩, some "')'"⟩ "/* é\n*/ )\n" := by
  have hrefused : ((new {}).compile "/* é\n*/ )\n").1 =
      .error (.refused ⟨.unexpectedToken, ⟨2, 4, 1⟩, some "')'"⟩) := by decide +kernel
  exact ⟨hrefused, points_of_refused hrefused⟩

/-- Behind a character of two bytes the caret stands under the next character. -/
theorem caret_behind_accent :
    ((new {}).compile "\"é\" 1\n").1 =
      .error (.refused ⟨.unexpectedToken, ⟨1, 6, 1⟩, some "number"⟩) ∧
    Diagnostic.render ⟨.unexpectedToken, ⟨1, 6, 1⟩, some "number"⟩ "\"é\" 1\n" =
      "syntax error: unexpected token at 1:6: number\n   1 | \"é\" 1\n     |      ^" ∧
    "   1 | \"é\" ".length + 1 = "     |      ".length := by
  decide +kernel

end Session

end DeskCalc
