import DeskCalc.Proofs.Chunks.Reading

/-!
# Tokens written out and read again

A `Lexeme` is a text that is a token. Lexemes that are written one behind the other, with a
`Separator` between any two of them, are read as the tokens they are (`readTokens_rendered`). A
separator begins with a blank, which no lexeme goes on with, so that each one ends where it should.
-/

namespace DeskCalc

open Scan

/-- The text `cs` is a token of a kind. -/
inductive Token.Kind.Spelt : Token.Kind → List Char → Prop
  | newline : Spelt .newline ['\n']
  | symbol (s : Symbol) : Spelt (.symbol s) s.spelling.toList
  | keyword (k : Keyword) : Spelt (.keyword k) k.spelling.toList
  | point : Spelt (.keyword (.setting .last)) ['.']
  | name {c : Char} {cs : List Char} (hc : isNameStart c = true) (hcs : cs.all isNameChar = true)
      (hfree : ∀ k : Keyword, k.spelling.toList ≠ c :: cs) : Spelt .name (c :: cs)
  | number {whole : List Char} (hwhole : whole.all isDigit = true) (hne : whole ≠ []) :
      Spelt .number whole
  | pointed {whole fraction : List Char} (hwhole : whole.all isDigit = true)
      (hfraction : fraction.all isDigit = true) (hne : whole ++ fraction ≠ []) :
      Spelt .number (whole ++ '.' :: fraction)
  | string {inside : List Char} (h : '"' ∉ inside) : Spelt .string ('"' :: inside ++ ['"'])

theorem Symbol.mem_all (s : Symbol) : s ∈ Symbol.all := by
  cases s with
  | arith op => cases op <;> decide
  | relation rel => cases rel <;> decide
  | assign op =>
    cases op with
    | none => decide
    | some op => cases op <;> decide
  | _ => decide

theorem Keyword.mem_all (k : Keyword) : k ∈ Keyword.all := by
  cases k with
  | setting s => cases s <;> decide
  | unary f => cases f <;> decide
  | query f => cases f <;> decide
  | ternary f => cases f <;> decide
  | _ => decide

/-- A text that is a token. -/
structure Lexeme where
  kind : Token.Kind
  text : List Char
  spelt : kind.Spelt text

namespace Scan

variable {rest cs whole : List Char} {c : Char} {f : Char → Bool}

/-- A blank, a continued line end or a block comment. -/
inductive Spacer
  | blank (c : Char) (h : c ∈ [' ', '\t', '\r', '\x0b', '\x0c'])
  | lineEnd
  | returnedLineEnd
  /-- The inside does not close the comment, not even with the star that follows it. -/
  | comment (inside : List Char) (h : ¬ ['*', '/'] <:+: inside ++ ['*'])

/-- The text of a spacer. -/
def Spacer.text : Spacer → List Char
  | blank c _ => [c]
  | lineEnd => ['\\', '\n']
  | returnedLineEnd => ['\\', '\r', '\n']
  | comment inside _ => '/' :: '*' :: (inside ++ ['*', '/'])

/-- What stands between two lexemes: a blank, and then any spacers. -/
structure Separator where
  first : Char
  blank : first ∈ [' ', '\t', '\r', '\x0b', '\x0c']
  more : List Spacer

/-- The spacers of a separator. -/
def Separator.spacers (s : Separator) : List Spacer := .blank s.first s.blank :: s.more

/-! ## A lexeme is cut off -/

/-- The text ends, or it goes on with a blank. -/
def Parted (rest : List Char) : Prop := ∀ c ∈ rest.head?, isBlank c = true

/-- A text begins with the lexeme `text`, which is cut off as a token of its kind. -/
def CutsOff (kind : Token.Kind) (text rest : List Char) : Prop :=
  splitBlanks (text ++ rest) = ([], text ++ rest) ∧
    ∃ v, cut (text ++ rest) = some ⟨.token kind v, text, rest⟩

theorem splitBlanks_of_head (hblank : isBlank c = false) (hslash : c ≠ '\\') :
    splitBlanks (c :: cs) = ([], c :: cs) := by
  rw [splitBlanks_cons (fun _ h => absurd h hslash) fun _ h => absurd h hslash]
  simp [hblank]

theorem takeWhile_of_parted (hf : ∀ c, isBlank c = true → f c = false) (hcs : cs.all f = true)
    (hrest : Parted rest) : (cs ++ rest).takeWhile f = cs ∧ (cs ++ rest).dropWhile f = rest := by
  have hall := List.all_eq_true.1 hcs
  have hstop : rest.takeWhile f = [] ∧ rest.dropWhile f = rest := by
    cases rest with
    | nil => exact ⟨rfl, rfl⟩
    | cons c rest => simp [hf c (hrest c rfl)]
  rw [List.takeWhile_append_of_pos hall, List.dropWhile_append_of_pos hall, hstop.1, hstop.2]
  simp

theorem not_isDigit_of_isNameStart (h : isNameStart c = true) : isDigit c = false := by
  simp only [isNameStart, isDigit, Bool.and_eq_true, decide_eq_true_eq, Char.le_def] at h ⊢
  grind

theorem isBlank_iff : isBlank c = true ↔ c ∈ [' ', '\t', '\r', '\x0b', '\x0c'] := by
  simp [isBlank, or_assoc]

theorem isBlank_eq_false_of (h : [' ', '\t', '\r', '\x0b', '\x0c'].any f = false)
    (hc : isBlank c = true) : f c = false := by
  simpa using List.any_eq_false.1 h c (isBlank_iff.1 hc)

theorem not_isBlank_of (h : [' ', '\t', '\r', '\x0b', '\x0c'].any f = false) (hc : f c = true) :
    isBlank c = false :=
  Bool.eq_false_iff.2 fun hblank => absurd (hc.symm.trans (isBlank_eq_false_of h hblank)) nofun

theorem cutsOff_word (hc : isNameStart c = true) (hcs : cs.all isNameChar = true)
    (hrest : Parted rest) {kind : Token.Kind} {v : Option Violation}
    (hshape : wordShape (String.ofList (c :: cs)) = .token kind v) : CutsOff kind (c :: cs) rest := by
  obtain ⟨htake, hdrop⟩ := takeWhile_of_parted
    (f := isNameChar) (fun _ => isBlank_eq_false_of (by decide)) hcs hrest
  have hne {d : Char} (hd : isNameStart d = false) : c ≠ d := by
    rintro rfl
    exact absurd (hc.symm.trans hd) nofun
  refine ⟨splitBlanks_of_head (not_isBlank_of (by decide) hc) (hne (by decide)), v, ?_⟩
  simp only [List.cons_append, cut, if_neg (hne (d := '\n') (by decide)),
    if_neg (hne (d := '#') (by decide)), if_neg (hne (d := '"') (by decide)),
    not_isDigit_of_isNameStart hc, hne (d := '.') (by decide), hc, htake, hdrop, hshape]
  simp

theorem splitDigits_append_of_all {ds : List Char} (h : ds.all isDigit = true) (rest : List Char) :
    splitDigits (ds ++ rest) = takeAlso ds (splitDigits rest) := by
  induction ds with
  | nil => rfl
  | cons d ds ih =>
    simp only [List.all_cons, Bool.and_eq_true] at h
    rw [List.cons_append, splitDigits_cons h.1, ih h.2]
    rfl

theorem splitDigits_of_parted (h : Parted rest) : splitDigits rest = ([], rest) := by
  cases rest with
  | nil => rfl
  | cons c rest =>
    have hc := h c rfl
    have hslash : c ≠ '\\' := by
      rintro rfl
      cases hc
    refine splitDigits_cons_of_not (fun _ h => absurd h hslash) (fun _ h => absurd h hslash) ?_
    rw [isBlank_eq_false_of (f := isDigit) (by decide) hc]
    nofun

theorem splitNumber_whole (hwhole : whole.all isDigit = true) (hrest : Parted rest) :
    splitNumber (whole ++ rest) = (whole, rest) := by
  rw [splitNumber, splitDigits_append_of_all hwhole, splitDigits_of_parted hrest]
  simp only [takeAlso, List.append_nil]
  split
  · next heq =>
    cases heq
    exact absurd (hrest '.' rfl) (by decide)
  · rfl

theorem splitNumber_pointed {fraction : List Char} (hwhole : whole.all isDigit = true)
    (hfraction : fraction.all isDigit = true) (hrest : Parted rest) :
    splitNumber (whole ++ '.' :: (fraction ++ rest)) = (whole ++ '.' :: fraction, rest) := by
  have hpoint : splitDigits ('.' :: (fraction ++ rest)) = ([], '.' :: (fraction ++ rest)) :=
    splitDigits_cons_of_not (fun _ h => absurd h (by decide)) (fun _ h => absurd h (by decide))
      (by decide)
  rw [splitNumber, splitDigits_append_of_all hwhole, hpoint]
  simp only [takeAlso, List.append_nil]
  rw [splitDigits_append_of_all hfraction, splitDigits_of_parted hrest]
  simp [takeAlso]

/-- A number is cut off where a digit comes first, or a point and a digit. -/
theorem cut_number {text : List Char} (htext : text ++ rest = c :: cs)
    (hfirst : (isDigit c || (c = '.' && cs.head?.any isDigit)) = true)
    (hsplit : splitNumber (text ++ rest) = (text, rest)) :
    splitBlanks (text ++ rest) = ([], text ++ rest) ∧
      cut (text ++ rest) = some ⟨.token .number none, text, rest⟩ := by
  have hc : continuesNumber c = true := by grind [continuesNumber]
  have hne {d : Char} (hd : continuesNumber d = false) : c ≠ d := by
    rintro rfl
    exact absurd (hc.symm.trans hd) (by simp)
  rw [htext] at hsplit ⊢
  refine ⟨splitBlanks_of_head (not_isBlank_of (by decide) hc) (hne (by decide)), ?_⟩
  simp only [cut, if_neg (hne (d := '\n') (by decide)), if_neg (hne (d := '#') (by decide)),
    if_neg (hne (d := '"') (by decide)), if_pos hfirst, hsplit]

theorem cutsOff_number {text : List Char} (htext : text ++ rest = c :: cs)
    (hfirst : (isDigit c || (c = '.' && cs.head?.any isDigit)) = true)
    (hsplit : splitNumber (text ++ rest) = (text, rest)) : CutsOff .number text rest :=
  (cut_number htext hfirst hsplit).imp_right fun h => ⟨none, h⟩

theorem cutsOff_pointed {fraction : List Char} (hwhole : whole.all isDigit = true)
    (hfraction : fraction.all isDigit = true) (hne : whole ++ fraction ≠ []) (hrest : Parted rest) :
    CutsOff .number (whole ++ '.' :: fraction) rest := by
  have hsplit : splitNumber (whole ++ '.' :: fraction ++ rest) =
      (whole ++ '.' :: fraction, rest) := by
    rw [List.append_assoc, List.cons_append, splitNumber_pointed hwhole hfraction hrest]
  cases whole with
  | cons c whole =>
    simp only [List.all_cons, Bool.and_eq_true] at hwhole
    exact cutsOff_number rfl (by simp [hwhole.1]) hsplit
  | nil =>
    cases fraction with
    | nil => exact absurd rfl hne
    | cons d fraction =>
      simp only [List.all_cons, Bool.and_eq_true] at hfraction
      exact cutsOff_number rfl (by simp [hfraction.1]) hsplit

theorem cutsOff_string {inside : List Char} (h : '"' ∉ inside) :
    CutsOff .string ('"' :: inside ++ ['"']) rest := by
  have hall : ∀ c ∈ inside, (c ≠ '"' : Bool) = true := by
    intro c hc
    simp only [ne_eq, decide_not, Bool.not_eq_true', decide_eq_false_iff_not]
    rintro rfl
    exact h hc
  refine ⟨splitBlanks_of_head (by decide) (by decide), none, ?_⟩
  simp only [List.cons_append, List.append_assoc, List.nil_append, cut, cutString]
  rw [List.takeWhile_append_of_pos hall, List.dropWhile_append_of_pos hall]
  simp

/-- Among the spellings that a spelling begins with, its own is found first. -/
theorem find?_spelling : ∀ s ∈ Symbol.all,
    (Symbol.all.find? fun t => t.spelling.toList.isPrefixOf s.spelling.toList) = some s := by
  decide

/-- No spelling has a blank in it, so that none reaches behind one. -/
theorem isPrefixOf_append_of_parted (s : Symbol) (cs : List Char) (hrest : Parted rest) :
    s.spelling.toList.isPrefixOf (cs ++ rest) = s.spelling.toList.isPrefixOf cs := by
  have hblank : ∀ s ∈ Symbol.all, s.spelling.toList.all (!isBlank ·) = true := by decide
  cases rest with
  | nil => rw [List.append_nil]
  | cons c rest =>
    have hc : c ∉ s.spelling.toList := fun hmem => by
      simpa [hrest c rfl] using List.all_eq_true.1 (hblank s s.mem_all) c hmem
    rw [Bool.eq_iff_iff, List.isPrefixOf_iff_prefix, List.isPrefixOf_iff_prefix]
    refine ⟨fun hpre => ?_, fun hpre => hpre.trans (List.prefix_append _ _)⟩
    rcases List.prefix_or_prefix_of_prefix hpre (List.prefix_append cs (c :: rest)) with h | h
    · exact h
    · obtain ⟨more, hmore⟩ := h
      rw [← hmore, List.prefix_append_right_inj] at hpre
      cases more with
      | nil => exact ⟨[], by rw [← hmore, List.append_nil, List.append_nil]⟩
      | cons d more =>
        obtain ⟨rfl, -⟩ := List.cons_prefix_cons.1 hpre
        exact absurd (hmore ▸ List.mem_append_right _ List.mem_cons_self) hc

theorem cutsOff_symbol (s : Symbol) (hrest : Parted rest) :
    CutsOff (.symbol s) s.spelling.toList rest := by
  have hfirst : Symbol.all.all (fun s => s.spelling.toList.head?.all fun c =>
      !(['\n', '#', '"', '.', '\\'].contains c) && !isBlank c && !isDigit c && !isNameStart c) := by
    decide
  have hopen : ∀ s ∈ Symbol.all, ¬['/', '*'] <+: s.spelling.toList := by decide
  cases hs : s.spelling.toList with
  | nil => exact absurd hs s.spelling_ne_nil
  | cons c cs =>
    have hc := List.all_eq_true.1 hfirst s s.mem_all
    simp only [hs, List.head?_cons, Option.all_some, Bool.and_eq_true, Bool.not_eq_true',
      List.contains_eq_mem, decide_eq_false_iff_not, List.mem_cons, List.not_mem_nil, not_or,
      or_false] at hc
    obtain ⟨⟨⟨⟨hline, hhash, hquote, hpoint, hslash⟩, hblank⟩, hdigit⟩, hname⟩ := hc
    have hcomment (hc : c = '/') (inside : List Char) : cs ++ rest ≠ '*' :: inside := by
      intro hstar
      cases cs with
      | nil => exact absurd (hrest '*' (by rw [← List.nil_append rest, hstar]; rfl)) nofun
      | cons d cs =>
        cases List.cons.inj hstar |>.1
        exact hopen s s.mem_all (by rw [hs, hc]; exact ⟨cs, rfl⟩)
    have hfind : Symbol.all.find? (fun t => t.spelling.toList.isPrefixOf (c :: (cs ++ rest))) =
        some s := by
      rw [← List.cons_append, ← hs]
      simp only [isPrefixOf_append_of_parted _ _ hrest]
      exact find?_spelling s s.mem_all
    refine ⟨splitBlanks_of_head hblank hslash, if s.isExtension then some .operator else none, ?_⟩
    simp only [List.cons_append, cut, if_neg hline, if_neg hhash, if_neg hquote, hdigit, hpoint,
      hname]
    rw [cutSymbol_eq hcomment, hfind]
    simp [hs]

theorem wordShape_keyword : ∀ k ∈ Keyword.all,
    wordShape k.spelling = .token (.keyword k) (if k.isPosix then none else some .keyword) := by
  decide

theorem wordShape_name (text : String) (h : ∀ k : Keyword, k.spelling ≠ text) :
    ∃ v, wordShape text = .token .name v := by
  have hnone : Keyword.ofName? text = none :=
    List.find?_eq_none.2 fun k _ => by simpa using h k
  exact ⟨_, by rw [wordShape, hnone]⟩

theorem cutsOff_keyword (k : Keyword) (hrest : Parted rest) :
    CutsOff (.keyword k) k.spelling.toList rest := by
  have hword : Keyword.all.all (fun k => k.spelling.toList.head?.any isNameStart &&
      k.spelling.toList.tail.all isNameChar) := by
    decide
  obtain ⟨hc, hcs⟩ := Bool.and_eq_true_iff.1 (List.all_eq_true.1 hword k k.mem_all)
  have hshape := wordShape_keyword k k.mem_all
  rw [← String.ofList_toList (s := k.spelling)] at hshape
  generalize k.spelling.toList = text at hc hcs hshape
  cases text with
  | nil => cases hc
  | cons c cs => exact cutsOff_word hc hcs hrest hshape

theorem cutsOff_point (hrest : Parted rest) : CutsOff (.keyword (.setting .last)) ['.'] rest := by
  have hdigit : rest.head?.any isDigit = false := by
    cases rest with
    | nil => rfl
    | cons c rest => exact isBlank_eq_false_of (f := isDigit) (by decide) (hrest c rfl)
  refine ⟨splitBlanks_of_head (by decide) (by decide), some .dotLast, ?_⟩
  simp only [List.cons_append, List.nil_append, cut, hdigit]
  rfl

/-- **A lexeme is cut off where a blank or nothing follows it.** -/
theorem cutsOff_of_spelt {kind : Token.Kind} {text : List Char} (h : kind.Spelt text)
    (hrest : Parted rest) : CutsOff kind text rest := by
  cases h with
  | newline => exact ⟨splitBlanks_of_head (by decide) (by decide), none, rfl⟩
  | symbol s => exact cutsOff_symbol s hrest
  | keyword k => exact cutsOff_keyword k hrest
  | point => exact cutsOff_point hrest
  | name hc hcs hfree =>
    obtain ⟨v, hv⟩ := wordShape_name (String.ofList _) fun k hk =>
      hfree k (by rw [hk, String.toList_ofList])
    exact cutsOff_word hc hcs hrest hv
  | number hwhole hne =>
    cases text with
    | nil => exact absurd rfl hne
    | cons c cs =>
      have hsplit := splitNumber_whole hwhole hrest
      rw [List.all_cons, Bool.and_eq_true] at hwhole
      exact cutsOff_number rfl (by simp [hwhole.1]) hsplit
  | pointed hwhole hfraction hne => exact cutsOff_pointed hwhole hfraction hne hrest
  | string h => exact cutsOff_string h

end Scan

/-! ## The whole text -/

/-- What is read apart from its place: the kind and the text of the token, the warnings and the
error. -/
def Reading.told (r : Reading) : Token.Kind × String × List Notice × Option Notice :=
  (r.token.kind, r.token.text, r.warnings, r.error)

/-- What a lexeme should be read as. -/
def Lexeme.told (w : Lexeme) : Token.Kind × String × List Notice × Option Notice :=
  (w.kind, String.ofList w.text, [], none)

namespace Scan

variable {rest : List Char} {ws : List Lexeme}

/-- The text is read as the tokens `ws` and its end. -/
def ReadAs (cs : List Char) (ws : List Lexeme) : Prop :=
  ∀ n p, cs.length < n → (Reading.ofPieces .lenient [] (scanFrom n p cs)).map Reading.told =
    ws.map Lexeme.told ++ [(.eof, "", [], none)]

theorem readAs_nil : ReadAs [] [] := by
  intro n p hn
  cases n with
  | zero => cases hn
  | succ n => rfl

theorem ReadAs.lexeme (h : ReadAs rest ws) (w : Lexeme) (hrest : Parted rest) :
    ReadAs (w.text ++ rest) (w :: ws) := by
  intro n p hn
  obtain ⟨hblanks, v, hcut⟩ := cutsOff_of_spelt w.spelt hrest
  have hlt : rest.length < (w.text ++ rest).length := length_rest_lt hcut
  cases n with
  | zero => cases hn
  | succ n =>
    have hread := h n (p.through w.text) (by omega)
    simp only [scanFrom, hblanks, hcut]
    -- where POSIX plays no part, a token that does not keep it is read as any other
    cases v <;> exact congrArg (w.told :: ·) hread

/-- Blanks before a text only move its place. -/
theorem ReadAs.blanks (h : ReadAs rest ws) (front : List Char)
    (hfront : splitBlanks (front ++ rest) = takeAlso front (splitBlanks rest)) :
    ReadAs (front ++ rest) ws := by
  intro n p hn
  cases n with
  | zero => cases hn
  | succ n =>
    have hscan : scanFrom (n + 1) p (front ++ rest) = scanFrom (n + 1) (p.through front) rest := by
      simp only [scanFrom, hfront, takeAlso, Position.through, List.foldl_append]
    rw [hscan]
    rw [List.length_append] at hn
    exact h (n + 1) _ (by omega)

theorem splitComment_of_first {inside : List Char} (h : ¬['*', '/'] <:+: inside ++ ['*'])
    (rest : List Char) :
    splitComment (inside ++ '*' :: '/' :: rest) = some (inside ++ ['*', '/'], rest) := by
  induction inside with
  | nil => rfl
  | cons c inside ih =>
    rw [List.cons_append, List.infix_cons_iff, not_or] at h
    rw [List.cons_append, splitComment, ih h.2]
    · rfl
    · rintro es rfl hes
      cases inside with
      | nil => cases hes
      | cons d inside =>
        cases hes
        exact h.1 ⟨inside ++ ['*'], rfl⟩

theorem ReadAs.comment (h : ReadAs rest ws) {inside : List Char}
    (hinside : ¬['*', '/'] <:+: inside ++ ['*']) :
    ReadAs ((Spacer.comment inside hinside).text ++ rest) ws := by
  have htext : (Spacer.comment inside hinside).text ++ rest =
      '/' :: '*' :: (inside ++ '*' :: '/' :: rest) := by
    simp [Spacer.text]
  have hcut : cut ((Spacer.comment inside hinside).text ++ rest) =
      some ⟨.comment none, (Spacer.comment inside hinside).text, rest⟩ := by
    simp only [htext, cut, cutSymbol, splitComment_of_first hinside]
    rfl
  have hlt : rest.length < ((Spacer.comment inside hinside).text ++ rest).length :=
    length_rest_lt hcut
  intro n p hn
  cases n with
  | zero => cases hn
  | succ n =>
    have hblanks : splitBlanks ((Spacer.comment inside hinside).text ++ rest) =
        ([], (Spacer.comment inside hinside).text ++ rest) :=
      splitBlanks_of_head (by decide) (by decide)
    simp only [scanFrom, hblanks, hcut]
    exact h n _ (by omega)

theorem ReadAs.spacer (h : ReadAs rest ws) (s : Spacer) : ReadAs (s.text ++ rest) ws := by
  cases s with
  | blank c hc =>
    have hslash : c ≠ '\\' := by
      rintro rfl
      simp at hc
    refine h.blanks [c] ?_
    rw [List.singleton_append, splitBlanks_cons (fun _ h => absurd h hslash) fun _ h =>
      absurd h hslash, if_pos (isBlank_iff.2 hc)]
  | lineEnd => exact h.blanks _ rfl
  | returnedLineEnd => exact h.blanks _ rfl
  | comment inside hinside => exact h.comment hinside

theorem ReadAs.spacers (h : ReadAs rest ws) (spacers : List Spacer) :
    ReadAs (spacers.flatMap Spacer.text ++ rest) ws := by
  induction spacers with
  | nil => exact h
  | cons s spacers ih =>
    rw [List.flatMap_cons, List.append_assoc]
    exact ih.spacer s

end Scan

/-- The text of lexemes with a separator behind each of them, and of a last lexeme without one, if
there is one. -/
def rendered (ws : List (Lexeme × Separator)) (last : Option Lexeme) : List Char :=
  (ws.flatMap fun w => w.1.text ++ w.2.spacers.flatMap Spacer.text) ++ last.elim [] Lexeme.text

theorem readAs_rendered (ws : List (Lexeme × Separator)) (last : Option Lexeme) :
    ReadAs (rendered ws last) (ws.map (·.1) ++ last.toList) := by
  induction ws with
  | nil =>
    cases last with
    | none => exact readAs_nil
    | some w =>
      have h := readAs_nil.lexeme w nofun
      rw [List.append_nil] at h
      exact h
  | cons w ws ih =>
    have hparted : Parted (w.2.spacers.flatMap Spacer.text ++ rendered ws last) := by
      rintro c hc
      cases hc
      exact isBlank_iff.2 w.2.blank
    have h := (ih.spacers w.2.spacers).lexeme w.1 hparted
    simpa [rendered] using h

/-- **Tokens that are written out are read again.** The text of any lexemes with separators between
them, and any spacers before them, is read as these lexemes and the end of the text, without any
error or warning. -/
theorem readTokens_rendered (lead : List Spacer) (ws : List (Lexeme × Separator))
    (last : Option Lexeme) :
    (readTokens .lenient
        (String.ofList (lead.flatMap Spacer.text ++ rendered ws last))).map Reading.told =
      (ws.map (·.1) ++ last.toList).map Lexeme.told ++ [(.eof, "", [], none)] := by
  have h := (readAs_rendered ws last).spacers lead
  rw [readTokens, scan, String.toList_ofList]
  exact h _ _ (Nat.lt_succ_self _)

end DeskCalc
