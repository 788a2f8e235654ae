import DeskCalc.Proofs.Grammar
import DeskCalc.Proofs.Tokens

/-!
# Reading texts one behind the other

A text whose last token is a line feed can be cut off there: the tokens of the text and another one
behind it are the tokens of the one and then those of the other, apart from their places
(`sights_append`). Nothing that is cut off before the line feed would have been cut in another way,
since what stops it is still to come in the same text.
-/

namespace DeskCalc

/-- What the compiler sees of a reading besides its place and its warnings. -/
abbrev Sight := Word × Bool

/-- The word of a reading, and whether it is an error. -/
def Reading.sight (r : Reading) : Sight := (r.token.word, r.error.isSome)

/-- The kind and the text of a reading, and whether it is an error. -/
def Reading.bare (r : Reading) : Token.Kind × String × Bool :=
  (r.token.kind, r.token.text, r.error.isSome)

/-- The end of a text. -/
def Sight.eof : Sight := ((.eof, ""), false)

/-- What the compiler sees of a text. -/
def sights (text : String) : List Sight := (readTokens .lenient text).map Reading.sight

namespace Scan

variable {c : Char} {us : List Cut}

/-! ## Pieces without places -/

/-- The text is cut into these pieces, with blanks between them. -/
inductive Cuts : List Char → List Cut → Prop
  | done {cs : List Char} (h : cut (splitBlanks cs).2 = none) : Cuts cs []
  | piece {cs : List Char} {c : Cut} {us : List Cut} (h : cut (splitBlanks cs).2 = some c)
      (hrest : Cuts c.rest us) : Cuts cs (c :: us)

theorem length_text_le (cs : List Char) : (splitBlanks cs).2.length ≤ cs.length := by
  have := congrArg List.length (splitBlanks_append cs)
  rw [List.length_append] at this
  omega

/-- Every text is cut into pieces. -/
theorem exists_cuts (cs : List Char) : ∃ us, Cuts cs us := by
  induction hn : cs.length using Nat.strongRecOn generalizing cs with
  | _ n ih =>
    cases hc : cut (splitBlanks cs).2 with
    | none => exact ⟨[], .done hc⟩
    | some c =>
      have hrest := length_rest_lt hc
      have htext := length_text_le cs
      obtain ⟨us, hus⟩ := ih c.rest.length (by omega) c.rest rfl
      exact ⟨c :: us, .piece hc hus⟩

/-- What a piece is seen as where POSIX plays no part; a comment is not seen. -/
def Cut.sight? (c : Cut) : Option Sight :=
  match c.shape with
  | .broken _ => some ((.error, ""), true)
  | .token kind _ => some (Token.word ⟨kind, String.ofList c.taken, ⟨0, 0, 0⟩⟩, false)
  | .comment _ => none

/-- What is read of a piece; a comment is not read unless it is an error. -/
def Cut.bare? (mode : Strictness) (c : Cut) : Option (Token.Kind × String × Bool) :=
  let error := some (.error, "", true)
  match c.shape with
  | .broken _ => error
  | .token kind none => some (kind, String.ofList c.taken, false)
  | .token kind (some _) =>
    if mode = .strict then error else some (kind, String.ofList c.taken, false)
  | .comment none => none
  | .comment (some _) => if mode = .strict then error else none

/-- What a text is cut into and what is read of it, the end of the text being the last of both. -/
theorem scanFrom_of_cuts (mode : Strictness) {n : Nat} {p : Position} {cs : List Char}
    (h : Cuts cs us) (hn : cs.length < n) (pending : List Notice) :
    (scanFrom n p cs).map (·.shape) = us.map (·.shape) ++ [.token .eof none] ∧
      (Reading.ofPieces mode pending (scanFrom n p cs)).map Reading.bare =
        us.filterMap (Cut.bare? mode) ++ [(.eof, "", false)] := by
  induction h generalizing n p pending with
  | @done cs hc =>
    cases n with
    | zero => exact absurd hn (Nat.not_lt_zero _)
    | succ n =>
      simp only [scanFrom, hc]
      exact ⟨rfl, rfl⟩
  | @piece cs c us hc _ ih =>
    cases n with
    | zero => exact absurd hn (Nat.not_lt_zero _)
    | succ n =>
      have hrest := length_rest_lt hc
      have htext := length_text_le cs
      have ih' (q : Position) (pending : List Notice) := ih (n := n) (p := q) (by omega) pending
      simp only [scanFrom, hc, Reading.ofPieces]
      refine ⟨by simp [(ih' _ []).1], ?_⟩
      split
      · next hs => simp [Cut.bare?, hs, ih', Reading.refuse, Reading.bare]
      · next hs => simp [Cut.bare?, hs, ih', Reading.accept, Reading.bare]
      · next hs =>
        cases mode <;> simp [Cut.bare?, hs, ih', Reading.accept, Reading.refuse, Reading.bare]
      · next hs => simp [Cut.bare?, hs, ih']
      · next hs => cases mode <;> simp [Cut.bare?, hs, ih', Reading.refuse, Reading.bare]

theorem map_bare_of_cuts (mode : Strictness) {text : String} (h : Cuts text.toList us) :
    (readTokens mode text).map Reading.bare = us.filterMap (Cut.bare? mode) ++ [(.eof, "", false)] :=
  (scanFrom_of_cuts mode h (Nat.lt_succ_self _) []).2

theorem sights_eq {text : String} (h : Cuts text.toList us) :
    sights text = us.filterMap Cut.sight? ++ [Sight.eof] := by
  have hbare := congrArg (List.map fun b => (Token.word ⟨b.1, b.2.1, ⟨0, 0, 0⟩⟩, b.2.2))
    (map_bare_of_cuts .lenient h)
  rw [List.map_append, List.map_filterMap, List.map_map] at hbare
  refine hbare.trans (congrArg (· ++ [Sight.eof]) (congrArg (us.filterMap ·) (funext fun c => ?_)))
  unfold Cut.bare? Cut.sight?
  rcases c.shape with ⟨kind, _ | _⟩ | ⟨_ | _⟩ | _ <;> rfl

/-! ## More text behind a barrier -/

/-- Neither blanks nor a symbol reach over the character. -/
def Barrier (k : Char) : Prop := k = '\n' ∨ continuesNumber k = true

variable {cs ds : List Char} {k : Char}

theorem barrier_newline : Barrier '\n' := .inl rfl

theorem Barrier.ne (h : Barrier k) : k ≠ '\r' ∧ k ≠ '\\' := by
  constructor <;> rintro rfl <;> simp [Barrier, continuesNumber, isDigit] at h

/-- Where a barrier is still to come, a text that does not begin with the end of a line does not
do so with more behind it. -/
theorem not_lineEnd_append (hk : Barrier k) (hn : ∀ es, cs ≠ '\n' :: es)
    (hr : ∀ es, cs ≠ '\r' :: '\n' :: es) (hmem : k ∈ cs) :
    (∀ es, cs ++ ds ≠ '\n' :: es) ∧ ∀ es, cs ++ ds ≠ '\r' :: '\n' :: es := by
  constructor
  · intro es hes
    cases cs with
    | nil => cases hmem
    | cons c cs =>
      rw [List.cons_append] at hes
      injection hes with hc _
      exact hn cs (hc ▸ rfl)
  · intro es hes
    rcases cs with _ | ⟨c, _ | ⟨d, cs⟩⟩
    · cases hmem
    · rw [List.cons_append] at hes
      injection hes with hc _
      exact absurd ((List.mem_singleton.1 hmem).trans hc) hk.ne.1
    · simp only [List.cons_append] at hes
      injection hes with hc hes
      injection hes with hd _
      exact hr cs (hc ▸ hd ▸ rfl)

theorem splitBlanks_cons (hn : ∀ es, c = '\\' → cs ≠ '\n' :: es)
    (hr : ∀ es, c = '\\' → cs ≠ '\r' :: '\n' :: es) : splitBlanks (c :: cs) =
      if isBlank c then takeAlso [c] (splitBlanks cs) else ([], c :: cs) := by
  rw [splitBlanks]
  · exact hn
  · exact hr

/-- Blanks end where they ended, if a barrier is behind them. -/
theorem splitBlanks_append_of_mem (hk : Barrier k) (h : k ∈ (splitBlanks cs).2) (ds : List Char) :
    splitBlanks (cs ++ ds) = ((splitBlanks cs).1, (splitBlanks cs).2 ++ ds) := by
  fun_induction splitBlanks cs with
  | case1 cs ih => rw [List.cons_append, List.cons_append, splitBlanks, ih h]; rfl
  | case2 cs ih =>
    rw [List.cons_append, List.cons_append, List.cons_append, splitBlanks, ih h]
    rfl
  | case3 c cs _ _ hblank ih =>
    have hc : c ≠ '\\' := by
      rintro rfl
      simp [isBlank] at hblank
    rw [List.cons_append, splitBlanks_cons (fun _ hc' => absurd hc' hc) fun _ hc' => absurd hc' hc,
      if_pos hblank, ih h]
    rfl
  | case4 c cs hn hr hblank =>
    have hmem (hc : c = '\\') : k ∈ cs := by
      subst hc
      exact (List.mem_cons.1 h).resolve_left hk.ne.2
    rw [List.cons_append, splitBlanks_cons, if_neg hblank]
    · exact fun es hc => (not_lineEnd_append hk (hn · hc) (hr · hc) (hmem hc)).1 es
    · exact fun es hc => (not_lineEnd_append hk (hn · hc) (hr · hc) (hmem hc)).2 es
  | case5 => cases h

/-- A text of blanks is nothing before another text. -/
theorem splitBlanks_append_of_nil (h : (splitBlanks cs).2 = []) :
    (splitBlanks (cs ++ ds)).2 = (splitBlanks ds).2 := by
  fun_induction splitBlanks cs with
  | case1 cs ih => exact ih h
  | case2 cs ih => exact ih h
  | case3 c cs _ _ hblank ih =>
    have hc : c ≠ '\\' := by
      rintro rfl
      simp [isBlank] at hblank
    rw [List.cons_append, splitBlanks_cons (fun _ hc' => absurd hc' hc) fun _ hc' => absurd hc' hc,
      if_pos hblank]
    exact ih h
  | case4 => cases h
  | case5 => rfl

theorem mem_of_mem_splitBlanks (h : c ∈ (splitBlanks cs).2) : c ∈ cs := by
  rw [← splitBlanks_append cs]
  exact List.mem_append_right _ h

theorem head?_append_of_any {f : Char → Bool} (h : cs.head?.any f = true) :
    (cs ++ ds).head?.any f = true := by
  cases cs with
  | nil => cases h
  | cons c cs => exact h

theorem head?_append_of_mem (h : k ∈ (splitBlanks cs).2) : (cs ++ ds).head? = cs.head? := by
  cases cs with
  | nil => cases h
  | cons c cs => rfl

theorem splitDigits_cons_of_not (hn : ∀ es, c = '\\' → cs ≠ '\n' :: es)
    (hr : ∀ es, c = '\\' → cs ≠ '\r' :: '\n' :: es) (hc : ¬isDigit c = true) :
    splitDigits (c :: cs) = ([], c :: cs) := by
  rw [splitDigits, if_neg hc]
  · exact hn
  · exact hr

/-- The digits end where they ended. A number goes on behind a continued line end only if a digit
comes next, and something comes next. -/
theorem splitDigits_append_of_mem (hk : Barrier k)
    (h : k ∈ (splitBlanks (splitDigits cs).2).2) :
    splitDigits (cs ++ ds) = ((splitDigits cs).1, (splitDigits cs).2 ++ ds) := by
  fun_induction splitDigits cs with
  | case1 cs hnext ih =>
    simp only [List.cons_append, splitDigits, if_pos (head?_append_of_any hnext), ih h]
    rfl
  | case2 cs hnext =>
    have hmem : k ∈ (splitBlanks cs).2 := h
    simp only [List.cons_append, splitDigits, head?_append_of_mem hmem, if_neg hnext]
  | case3 cs hnext ih =>
    simp only [List.cons_append, splitDigits, if_pos (head?_append_of_any hnext), ih h]
    rfl
  | case4 cs hnext =>
    have hmem : k ∈ (splitBlanks cs).2 := h
    simp only [List.cons_append, splitDigits, head?_append_of_mem hmem, if_neg hnext]
  | case5 c cs _ _ hdigit ih =>
    rw [List.cons_append, splitDigits_cons hdigit, ih h]
    rfl
  | case6 c cs hn hr hdigit =>
    have hmem (hc : c = '\\') : k ∈ cs := by
      subst hc
      rw [splitBlanks_cons hn hr] at h
      exact (List.mem_cons.1 h).resolve_left hk.ne.2
    rw [List.cons_append, splitDigits_cons_of_not _ _ hdigit]
    · exact fun es hc => (not_lineEnd_append hk (hn · hc) (hr · hc) (hmem hc)).1 es
    · exact fun es hc => (not_lineEnd_append hk (hn · hc) (hr · hc) (hmem hc)).2 es
  | case7 => cases h

theorem mem_of_mem_splitDigits (h : c ∈ (splitDigits cs).2) : c ∈ cs := by
  rw [← splitDigits_append cs]
  exact List.mem_append_right _ h

theorem splitNumber_append_of_mem (hk : Barrier k)
    (h : k ∈ (splitBlanks (splitNumber cs).2).2) :
    splitNumber (cs ++ ds) = ((splitNumber cs).1, (splitNumber cs).2 ++ ds) := by
  unfold splitNumber at h ⊢
  split at h
  · next whole rest hpoint =>
    have hmem : k ∈ rest := mem_of_mem_splitDigits (mem_of_mem_splitBlanks h)
    have hblanks : (splitBlanks ('.' :: rest)).2 = '.' :: rest := by
      rw [splitBlanks_cons] <;> simp [isBlank]
    rw [splitDigits_append_of_mem hk (by rw [hpoint, hblanks]; exact List.mem_cons_of_mem _ hmem),
      hpoint]
    simp only [List.cons_append, takeAlso, splitDigits_append_of_mem hk h]
  · next hpoint =>
    rw [splitDigits_append_of_mem hk h]
    cases hd : splitDigits cs with
    | mk whole rest =>
      rcases rest with _ | ⟨c, rest⟩
      · rw [hd] at h
        cases h
      · have hc : c ≠ '.' := by
          rintro rfl
          exact hpoint whole rest hd
        simp only [List.cons_append]
        split
        · next heq =>
          injection heq with _ heq
          injection heq with hdot
          exact absurd hdot hc
        · rfl

theorem splitComment_append_of_some {taken rest : List Char}
    (h : splitComment cs = some (taken, rest)) :
    splitComment (cs ++ ds) = some (taken, rest ++ ds) := by
  fun_induction splitComment cs generalizing taken with
  | case1 cs =>
    cases h
    rfl
  | case2 c cs hend ih =>
    obtain ⟨⟨taken', rest'⟩, hparts, hp⟩ := Option.map_eq_some_iff.1 h
    cases hp
    have hne : cs ≠ [] := by
      rintro rfl
      cases hparts
    rw [List.cons_append, splitComment, ih hparts]
    · rfl
    · rintro es hc hes
      cases cs with
      | nil => exact hne rfl
      | cons d cs =>
        rw [List.cons_append] at hes
        injection hes with hd _
        exact hend cs hc (hd ▸ rfl)
  | case3 => cases h

/-- No symbol has a barrier in it, so that none reaches behind one. -/
theorem isPrefixOf_append_of_mem (s : Symbol) (hk : Barrier k) (h : k ∈ cs) (ds : List Char) :
    s.spelling.toList.isPrefixOf (cs ++ ds) = s.spelling.toList.isPrefixOf cs := by
  have hs : s.spelling.toList.all (fun c => c != '\n' && !continuesNumber c) = true := by
    cases s with
    | arith op => cases op <;> rfl
    | relation rel => cases rel <;> rfl
    | assign op =>
      cases op with
      | none => rfl
      | some op => cases op <;> rfl
    | _ => rfl
  rw [Bool.eq_iff_iff, List.isPrefixOf_iff_prefix, List.isPrefixOf_iff_prefix]
  refine ⟨fun hpre => ?_, fun hpre => hpre.trans (List.prefix_append _ _)⟩
  rcases List.prefix_or_prefix_of_prefix hpre (List.prefix_append cs ds) with hpre | hpre
  · exact hpre
  · have hk' := List.all_eq_true.1 hs k (hpre.subset h)
    simp only [Bool.and_eq_true, bne_iff_ne, Bool.not_eq_true'] at hk'
    rcases hk with hk | hk
    · exact absurd hk hk'.1
    · exact absurd hk (by simp [hk'.2])

/-- A run of characters that was stopped is stopped at the same place. -/
theorem takeWhile_append_of_ne {f : Char → Bool} (h : cs.dropWhile f ≠ []) (ds : List Char) :
    (cs ++ ds).takeWhile f = cs.takeWhile f ∧
      (cs ++ ds).dropWhile f = cs.dropWhile f ++ ds := by
  have hlen := congrArg List.length (List.takeWhile_append_dropWhile (p := f) (l := cs))
  have hpos := List.length_pos_iff.2 h
  rw [List.length_append] at hlen
  rw [List.takeWhile_append, if_neg (by omega), List.dropWhile_append, if_neg (by simpa using h)]
  exact ⟨rfl, rfl⟩

theorem cutString_append_of_mem (h : k ∈ (cutString cs).rest) :
    cutString (cs ++ ds) = { cutString cs with rest := (cutString cs).rest ++ ds } := by
  cases hdrop : cs.dropWhile (· ≠ '"') with
  | nil =>
    simp only [cutString, hdrop] at h
    cases h
  | cons c rest =>
    have hc : c = '"' := by
      have hhead := List.head?_dropWhile_not (· ≠ '"') cs
      rw [hdrop] at hhead
      simpa using hhead
    subst hc
    obtain ⟨htake, hdrop'⟩ := takeWhile_append_of_ne (hdrop ▸ List.cons_ne_nil _ _) ds
    simp only [cutString, htake, hdrop', hdrop, List.cons_append]

/-- What is no comment is the longest symbol that the text starts with. -/
theorem cutSymbol_eq (h : c = '/' → ∀ inside, cs ≠ '*' :: inside) : cutSymbol c cs =
      match Symbol.all.find? fun s => s.spelling.toList.isPrefixOf (c :: cs) with
      | some s =>
        ⟨.token (.symbol s) (if s.isExtension then some .operator else none),
          (c :: cs).take s.spelling.toList.length, (c :: cs).drop s.spelling.toList.length⟩
      | none => ⟨.broken (.unexpectedChar c), [c], cs⟩ := by
  unfold cutSymbol
  split
  · next inside => exact absurd rfl (h rfl inside)
  · rfl

theorem cutSymbol_append_of_mem (hk : Barrier k) (hc : ¬Barrier c) (h : k ∈ (cutSymbol c cs).rest) :
    cutSymbol c (cs ++ ds) = { cutSymbol c cs with rest := (cutSymbol c cs).rest ++ ds } := by
  have hmem : k ∈ c :: cs := by
    rw [← cutSymbol_append c cs]
    exact List.mem_append_right _ h
  by_cases hcomment : c = '/' ∧ ∃ inside, cs = '*' :: inside
  · obtain ⟨rfl, inside, rfl⟩ := hcomment
    cases hinside : splitComment inside with
    | none =>
      simp only [cutSymbol, hinside] at h
      cases h
    | some parts =>
      simp only [List.cons_append, cutSymbol, splitComment_append_of_some hinside, hinside]
  · have hopen (hslash : c = '/') (inside : List Char) : cs ≠ '*' :: inside :=
      fun hstar => hcomment ⟨hslash, inside, hstar⟩
    have hopen' (hslash : c = '/') (inside : List Char) : cs ++ ds ≠ '*' :: inside := by
      cases cs with
      | nil => exact absurd (List.mem_singleton.1 hmem ▸ hk) hc
      | cons d es =>
        intro hstar
        rw [List.cons_append] at hstar
        injection hstar with hd _
        exact hopen hslash es (hd ▸ rfl)
    have hfind := congrArg Symbol.all.find? (funext fun s : Symbol =>
      isPrefixOf_append_of_mem s hk hmem ds)
    simp only [List.cons_append] at hfind
    rw [cutSymbol_eq hopen] at h ⊢
    rw [cutSymbol_eq hopen', hfind]
    cases hs : Symbol.all.find? fun s => s.spelling.toList.isPrefixOf (c :: cs) with
    | none => rfl
    | some s =>
      have hpre := List.find?_some hs
      have hle := (List.isPrefixOf_iff_prefix.1 hpre).length_le
      simp only [← List.cons_append, List.take_append_of_le_length hle,
        List.drop_append_of_le_length hle]

/-- **A piece that leaves a barrier is cut off in the same way with more text behind it.** -/
theorem cut_append_of_mem {c : Cut} (hk : Barrier k) (h : cut cs = some c)
    (hrest : k ∈ (splitBlanks c.rest).2) :
    cut (cs ++ ds) = some { c with rest := c.rest ++ ds } := by
  have hmem := mem_of_mem_splitBlanks hrest
  cases cs with
  | nil => cases h
  | cons d cs =>
    have hhead : (cs ++ ds).head? = cs.head? := by
      have htext := cut_append h
      cases htaken : c.taken with
      | nil => exact absurd htaken (cut_taken_ne_nil h)
      | cons t ts =>
        rw [htaken, List.cons_append] at htext
        injection htext with _ htext
        cases cs with
        | nil =>
          rw [(List.append_eq_nil_iff.1 htext).2] at hmem
          cases hmem
        | cons e cs => rfl
    simp only [List.cons_append, cut, hhead] at h ⊢
    split at h
    · next hd =>
      cases h
      rw [if_pos hd]
    next hline =>
    rw [if_neg hline]
    split at h
    · next hd =>
      cases h
      obtain ⟨htake, hdrop⟩ := takeWhile_append_of_ne (List.ne_nil_of_mem hmem) ds
      rw [if_pos hd, htake, hdrop]
    next hhash =>
    rw [if_neg hhash]
    split at h
    · next hd =>
      cases h
      rw [if_pos hd, cutString_append_of_mem hmem]
    next hquote =>
    rw [if_neg hquote]
    split at h
    · next hd =>
      cases h
      rw [if_pos hd, ← List.cons_append, splitNumber_append_of_mem hk hrest]
    next hnumber =>
    rw [if_neg hnumber]
    split at h
    · next hd =>
      cases h
      rw [if_pos hd]
    next hpoint =>
    rw [if_neg hpoint]
    split at h
    · next hd =>
      cases h
      obtain ⟨htake, hdrop⟩ := takeWhile_append_of_ne (List.ne_nil_of_mem hmem) ds
      rw [if_pos hd, htake, hdrop]
    · next hname =>
      cases h
      rw [if_neg hname, cutSymbol_append_of_mem hk (by grind [Barrier, continuesNumber]) hmem]

/-! ## Texts that end a line -/

/-- The last piece is a line feed. -/
def LastLine (us : List Cut) : Prop := ∃ c ∈ us.getLast?, c.shape = .token .newline none

theorem eq_of_cut_newline {c : Cut} (h : cut cs = some c) (hc : c.shape = .token .newline none) :
    cs = '\n' :: c.rest := by
  cases cs with
  | nil => cases h
  | cons d cs =>
    simp only [cut] at h
    split at h
    · next hd =>
      cases h
      rw [hd]
    -- no other piece is a line feed
    · repeat' split at h
      all_goals cases h
      · cases hc
      · unfold cutString at hc
        split at hc <;> cases hc
      · cases hc
      · cases hc
      · simp only [wordShape] at hc
        split at hc <;> cases hc
      · unfold cutSymbol at hc
        split at hc
        · split at hc <;> cases hc
        · split at hc <;> cases hc

/-- Blanks before a text change nothing. -/
theorem Cuts.blanks {vs : List Cut} (h : (splitBlanks cs).2 = []) (hv : Cuts ds vs) :
    Cuts (cs ++ ds) vs := by
  cases hv with
  | done hc => exact .done (by rw [splitBlanks_append_of_nil h, hc])
  | piece hc hrest => exact .piece (by rw [splitBlanks_append_of_nil h, hc]) hrest

/-- A line feed among the pieces is a line feed behind the blanks. -/
theorem mem_of_lastLine (h : Cuts cs us) (hus : LastLine us) : '\n' ∈ (splitBlanks cs).2 := by
  induction h with
  | done => simp [LastLine] at hus
  | @piece cs c us hc hrest ih =>
    cases us with
    | nil =>
      obtain ⟨c', hc', hshape⟩ := hus
      cases hc'
      rw [eq_of_cut_newline hc hshape]
      exact List.mem_cons_self
    | cons u us =>
      rw [← cut_append hc]
      exact List.mem_append_right _ (mem_of_mem_splitBlanks (ih hus))

/-- **Pieces behind a line feed.** -/
theorem Cuts.append {vs : List Cut} (h : Cuts cs us) (hus : LastLine us) (hv : Cuts ds vs) :
    Cuts (cs ++ ds) (us.map (fun c => { c with rest := c.rest ++ ds }) ++ vs) := by
  have hblanks := splitBlanks_append_of_mem barrier_newline (mem_of_lastLine h hus) ds
  induction h with
  | done => simp [LastLine] at hus
  | @piece cs c us hc hrest ih =>
    cases us with
    | nil =>
      obtain ⟨c', hc', hshape⟩ := hus
      cases hc'
      have htext := eq_of_cut_newline hc hshape
      have hnone : (splitBlanks c.rest).2 = [] := by
        cases hrest with
        | done hnone =>
          cases hs : (splitBlanks c.rest).2 with
          | nil => rfl
          | cons d es =>
            rw [hs] at hnone
            simp only [cut] at hnone
            repeat' split at hnone
            all_goals cases hnone
      refine .piece (c := { c with rest := c.rest ++ ds }) ?_ (hv.blanks hnone)
      rw [htext] at hc
      have hcut : _ = c := Option.some.inj hc
      rw [hblanks, htext, ← congrArg Cut.shape hcut, ← congrArg Cut.taken hcut]
      rfl
    | cons u us =>
      have hline := mem_of_lastLine hrest hus
      refine .piece (c := { c with rest := c.rest ++ ds }) ?_ ?_
      · rw [hblanks]
        exact cut_append_of_mem barrier_newline hc hline
      · exact ih hus (splitBlanks_append_of_mem barrier_newline hline ds)

end Scan

/-- The last piece of the text is a line feed, so that the text ends in one that does not continue
its line. -/
def EndsLine (text : String) : Prop :=
  (scan text).dropLast.getLast?.map (·.shape) = some (.token .newline none)

instance (text : String) : Decidable (EndsLine text) := inferInstanceAs (Decidable (_ = _))

theorem lastLine_of_endsLine {text : String} {us : List Scan.Cut} (h : EndsLine text)
    (hus : Scan.Cuts text.toList us) : Scan.LastLine us := by
  have hshapes := (Scan.scanFrom_of_cuts .lenient (p := ⟨1, 1⟩) hus (Nat.lt_succ_self _) []).1
  rw [EndsLine, scan, ← List.getLast?_map, List.map_dropLast, hshapes, List.dropLast_concat,
    List.getLast?_map, Option.map_eq_some_iff] at h
  exact h

/-- **What is seen of a text with another one behind it** is what is seen of the one, and then of
the other. -/
theorem sights_append {a b : String} (h : EndsLine a) :
    sights (a ++ b) = (sights a).dropLast ++ sights b := by
  obtain ⟨us, hus⟩ := Scan.exists_cuts a.toList
  obtain ⟨vs, hvs⟩ := Scan.exists_cuts b.toList
  have hcuts := hus.append (lastLine_of_endsLine h hus) hvs
  rw [← String.toList_append] at hcuts
  have hsame (ds : List Char) :
      Scan.Cut.sight? ∘ (fun c => { c with rest := c.rest ++ ds }) = Scan.Cut.sight? := rfl
  rw [Scan.sights_eq hus, Scan.sights_eq hvs, Scan.sights_eq hcuts, List.filterMap_append,
    List.filterMap_map, hsame, List.dropLast_concat, List.append_assoc]

end DeskCalc
