import DeskCalc.Proofs.Positions
import Mathlib.Data.List.Induction

/-!
# Reading a text token by token

A `Reader` stands at a place of a text and hands out the next token, as often as it is asked.
Comments are passed over, and at the end of the text it stays there. These are the tokens of
`readTokens` where POSIX plays no part, and then the end of the text for ever.

Nothing of the text is lost on the way (`Reader.calls_faithful`). The tokens and the gaps between
them make up the text, a gap is made of blanks, continued line ends and comments (`Scan.Gap`), and
the place of a token is what counting lines and bytes in the text before it gives.
-/

namespace DeskCalc

namespace Scan

/-! ## Gaps -/

/-- What may stand between two tokens, where `rest` follows it: blanks, continued line ends,
comments from `#` up to the end of the line or of the text, and block comments up to the first
`*/`. -/
inductive Gap : List Char → List Char → Prop
  | nil {rest : List Char} : Gap [] rest
  | blank {c : Char} {gap rest : List Char} (hc : c ∈ [' ', '\t', '\r', '\x0b', '\x0c'])
      (h : Gap gap rest) : Gap (c :: gap) rest
  | lineEnd {gap rest : List Char} (h : Gap gap rest) : Gap ('\\' :: '\n' :: gap) rest
  | returnedLineEnd {gap rest : List Char} (h : Gap gap rest) :
      Gap ('\\' :: '\r' :: '\n' :: gap) rest
  | hash {inside gap rest : List Char} (hinside : '\n' ∉ inside)
      (hend : gap ++ rest = [] ∨ (gap ++ rest).head? = some '\n') (h : Gap gap rest) :
      Gap ('#' :: (inside ++ gap)) rest
  | block {inside gap rest : List Char} (hfirst : ¬ ['*', '/'] <:+: inside ++ ['*'])
      (h : Gap gap rest) : Gap ('/' :: '*' :: (inside ++ '*' :: '/' :: gap)) rest

theorem Gap.append {gap gap' rest : List Char} (h : Gap gap (gap' ++ rest)) (h' : Gap gap' rest) :
    Gap (gap ++ gap') rest := by
  generalize hbehind : gap' ++ rest = behind at h
  induction h with
  | nil => exact h'
  | blank hc _ ih => exact .blank hc (ih hbehind)
  | lineEnd _ ih => exact .lineEnd (ih hbehind)
  | returnedLineEnd _ ih => exact .returnedLineEnd (ih hbehind)
  | hash hinside hend _ ih =>
    rw [List.cons_append, List.append_assoc]
    refine .hash hinside ?_ (ih hbehind)
    rw [List.append_assoc, hbehind]
    exact hend
  | block hfirst _ ih =>
    rw [List.cons_append, List.cons_append, List.append_assoc]
    exact .block hfirst (ih hbehind)

theorem gap_splitBlanks (cs : List Char) : Gap (splitBlanks cs).1 (splitBlanks cs).2 := by
  fun_induction splitBlanks cs with
  | case1 cs ih => exact .lineEnd ih
  | case2 cs ih => exact .returnedLineEnd ih
  | case3 c cs _ _ hblank ih => exact .blank (by simpa [isBlank, or_assoc] using hblank) ih
  | case4 => exact .nil
  | case5 => exact .nil

/-- A block comment ends at the first `*/`. -/
theorem first_of_splitComment {cs taken rest : List Char}
    (h : splitComment cs = some (taken, rest)) :
    ∃ inside, taken = inside ++ ['*', '/'] ∧ ¬ ['*', '/'] <:+: inside ++ ['*'] := by
  fun_induction splitComment cs generalizing taken with
  | case1 cs =>
    cases h
    exact ⟨[], rfl, by decide⟩
  | case2 c cs hend ih =>
    obtain ⟨⟨taken', rest'⟩, hparts, hp⟩ := Option.map_eq_some_iff.1 h
    cases hp
    obtain ⟨inside, rfl, hfirst⟩ := ih hparts
    refine ⟨c :: inside, rfl, fun hinfix => ?_⟩
    rcases List.infix_cons_iff.1 hinfix with hprefix | hinfix
    · -- the comment would have ended right here
      obtain ⟨rfl, hslash⟩ := List.cons_prefix_cons.1 hprefix
      have htext : cs = inside ++ ['*'] ++ '/' :: rest' := by
        rw [← splitComment_append hparts]
        simp
      obtain ⟨tail, htail⟩ := hslash.trans ⟨_, htext.symm⟩
      exact hend tail rfl htail.symm
    · exact hfirst hinfix
  | case3 => cases h

theorem gap_of_cutSymbol {d : Char} {ds : List Char} {v : Option Violation}
    (h : (cutSymbol d ds).shape = .comment v) :
    Gap (cutSymbol d ds).taken (cutSymbol d ds).rest := by
  unfold cutSymbol at h ⊢
  split at h
  · next inside =>
    split at h
    · next taken rest hparts =>
      obtain ⟨inside', rfl, hfirst⟩ := first_of_splitComment hparts
      exact .block hfirst .nil
    · cases h
  · split at h <;> cases h

/-- A comment is a gap by itself. -/
theorem gap_of_cut {cs : List Char} {c : Cut} {v : Option Violation} (h : cut cs = some c)
    (hc : c.shape = .comment v) : Gap c.taken c.rest := by
  cases cs with
  | nil => simp [cut] at h
  | cons d ds =>
    simp only [cut] at h
    repeat' split at h
    all_goals cases h
    · cases hc
    · next hhash =>
      subst hhash
      have hgap : Gap ('#' :: (ds.takeWhile (· ≠ '\n') ++ [])) (ds.dropWhile (· ≠ '\n')) := by
        refine .hash (fun hmem => ?_) ?_ .nil
        · simpa using List.all_eq_true.1 List.all_takeWhile _ hmem
        · cases hdrop : ds.dropWhile (· ≠ '\n') with
          | nil => exact .inl rfl
          | cons e es =>
            have hhead := List.head?_dropWhile_not (· ≠ '\n') ds
            rw [hdrop] at hhead
            exact .inr (by simpa using hhead)
      simpa using hgap
    · unfold cutString at hc
      split at hc <;> cases hc
    · cases hc
    · cases hc
    · simp only [wordShape] at hc
      split at hc <;> cases hc
    · exact gap_of_cutSymbol hc

/-! ## Places -/

/-- The number of the line that is reached behind a text. -/
def lineBehind (cs : List Char) : Nat := 1 + cs.count '\n'

/-- The column that is reached behind a text: one more than the bytes since the last line feed. -/
def colBehind (cs : List Char) : Nat := 1 + byteLength (cs.reverse.takeWhile (· ≠ '\n'))

/-- **A place is kept up to date by counting.** -/
theorem through_eq (cs : List Char) :
    Position.through ⟨1, 1⟩ cs = ⟨lineBehind cs, colBehind cs⟩ := by
  induction cs using List.reverseRecOn with
  | nil => rfl
  | append_singleton cs c ih =>
    rw [Position.through_append, ih]
    by_cases hc : c = '\n'
    · subst hc
      simp [Position.through, Position.step, lineBehind, colBehind, byteLength, Nat.add_assoc]
    · simp [Position.through, Position.step, hc, lineBehind, colBehind, byteLength]
      omega

end Scan

/-! ## The reader -/

open Scan

/-- A text that is being read: the place that has been reached, and what is left of the text. -/
structure Reader where
  place : Position
  rest : List Char

namespace Reader

variable {r : Reader}

/-- A text of which nothing has been read. -/
def ofText (source : String) : Reader := ⟨⟨1, 1⟩, source.toList⟩

/-- Move over a part of the text. -/
def move (r : Reader) (cs rest : List Char) : Reader := ⟨r.place.through cs, rest⟩

/-- Move over the blanks. -/
def skipBlanks (r : Reader) : Reader := r.move (splitBlanks r.rest).1 (splitBlanks r.rest).2

/-- What is left behind a piece is shorter. -/
theorem length_rest_lt_of_cut {c : Cut} (h : cut r.skipBlanks.rest = some c) :
    c.rest.length < r.rest.length := by
  have hrest : c.rest.length < (splitBlanks r.rest).2.length := length_rest_lt h
  have hblanks := congrArg List.length (splitBlanks_append r.rest)
  rw [List.length_append] at hblanks
  omega

/-- The next token where POSIX plays no part, and the reader behind it. -/
def next (r : Reader) : Reading × Reader :=
  match _hc : cut r.skipBlanks.rest with
  | none => (.accept [] .eof (endPiece r.skipBlanks.place), r.skipBlanks)
  | some c =>
    let span := r.skipBlanks.place.span c.taken
    let behind := r.skipBlanks.move c.taken c.rest
    match c.shape with
    | .comment _ => next behind
    | .broken flaw => (.refuse [] flaw span, behind)
    | .token kind _ => (.accept [] kind ⟨c.shape, String.ofList c.taken, span⟩, behind)
termination_by r.rest.length
decreasing_by exact length_rest_lt_of_cut _hc

theorem next_of_none (h : cut r.skipBlanks.rest = none) :
    r.next = (.accept [] .eof (endPiece r.skipBlanks.place), r.skipBlanks) := by
  rw [next]
  split
  · rfl
  · next hc => cases h.symm.trans hc

theorem next_of_cut {c : Cut} (h : cut r.skipBlanks.rest = some c) : r.next =
      let span := r.skipBlanks.place.span c.taken
      let behind := r.skipBlanks.move c.taken c.rest
      match c.shape with
      | .comment _ => next behind
      | .broken flaw => (.refuse [] flaw span, behind)
      | .token kind _ => (.accept [] kind ⟨c.shape, String.ofList c.taken, span⟩, behind) := by
  rw [next]
  split
  · next hc => cases h.symm.trans hc
  · next hc =>
    cases h.symm.trans hc
    rfl

/-- The reader after some tokens. -/
def after : Nat → Reader → Reader
  | 0, r => r
  | i + 1, r => after i r.next.2

/-- The token that is handed out after `i` others. -/
def call (r : Reader) (i : Nat) : Reading := (after i r).next.1

/-- The reader hands out `t` for the part `text` of its text. -/
structure Spells (t : Reading) (p : Position) (text : List Char) : Prop where
  span : t.token.span = p.span text
  lexeme : t.token.kind ≠ .error → t.token.text = String.ofList text
  going : t.token.kind ≠ .eof

/-- What one call does: it passes over a gap and over a token, or it reaches the end of the text. -/
inductive Steps (r : Reader) : Reading × Reader → Prop
  | token {gap text rest : List Char} {t : Reading} (hrest : r.rest = gap ++ (text ++ rest))
      (hgap : Gap gap (text ++ rest)) (htext : text ≠ [])
      (ht : Spells t (r.place.through gap) text) : Steps r (t, r.move (gap ++ text) rest)
  | ended (hgap : Gap r.rest []) :
      Steps r (⟨⟨.eof, "", (r.place.through r.rest).span []⟩, [], none⟩, r.move r.rest [])

/-- A gap before what a call passes over belongs to it. -/
theorem Steps.prepend {gap rest : List Char} {x : Reading × Reader} (hrest : r.rest = gap ++ rest)
    (hgap : Gap gap rest) (h : Steps (r.move gap rest) x) : Steps r x := by
  cases h with
  | @token gap' text rest' t hrest' hgap' htext ht =>
    have hsplit : rest = gap' ++ (text ++ rest') := hrest'
    have hmove : (r.move gap rest).move (gap' ++ text) rest' =
        r.move (gap ++ gap' ++ text) rest' := by
      simp only [move, Position.through_append]
    rw [hmove]
    refine .token (by rw [hrest, hsplit, List.append_assoc]) ((hsplit ▸ hgap).append hgap') htext ?_
    rw [Position.through_append]
    exact ht
  | ended hgap' =>
    have hgap' : Gap rest [] := hgap'
    have hwhole : Gap r.rest [] := by
      rw [hrest]
      exact Gap.append (by rwa [List.append_nil]) hgap'
    have hplace : (r.place.through gap).through rest = r.place.through r.rest := by
      rw [hrest, Position.through_append]
    show Steps r (⟨⟨.eof, "", ((r.place.through gap).through rest).span []⟩, [], none⟩,
      ⟨(r.place.through gap).through rest, []⟩)
    rw [hplace]
    exact .ended hwhole

/-- The end of the text is where nothing can be cut off. -/
theorem cut_eq_none {cs : List Char} (h : cut cs = none) : cs = [] := by
  cases cs with
  | nil => rfl
  | cons c cs =>
    simp only [cut] at h
    repeat' split at h
    all_goals cases h

theorem Steps.skipBlanks {x : Reading × Reader} (h : Steps r.skipBlanks x) : Steps r x :=
  h.prepend (splitBlanks_append r.rest).symm (gap_splitBlanks r.rest)

theorem steps_of_cut {c : Cut} {t : Reading} (h : cut r.rest = some c)
    (ht : Spells t r.place c.taken) : Steps r (t, r.move c.taken c.rest) :=
  .token (cut_append h).symm .nil (cut_taken_ne_nil h) ht

/-- **One call passes over a gap and a token, or it reaches the end of the text.** -/
theorem steps_next (r : Reader) : Steps r r.next := by
  fun_induction next r with
  | case1 r hc =>
    rcases hstart : r.skipBlanks with ⟨p, cs⟩
    rw [hstart] at hc
    cases cut_eq_none hc
    refine Steps.skipBlanks ?_
    rw [hstart]
    exact .ended .nil
  | case2 r c hc behind v hv ih =>
    exact (Steps.prepend (cut_append hc).symm (gap_of_cut hc hv) ih).skipBlanks
  | case3 r c hc span behind flaw hflaw =>
    refine (steps_of_cut hc ?_).skipBlanks
    exact ⟨rfl, fun hne => absurd rfl hne, nofun⟩
  | case4 r c hc span behind kind v hkind =>
    refine (steps_of_cut hc ?_).skipBlanks
    exact ⟨rfl, fun _ => rfl, fun heof => shape_ne_eof hc v (heof ▸ hkind)⟩

/-! ## Call after call -/

theorem call_succ (r : Reader) (i : Nat) : r.call (i + 1) = r.next.2.call i := rfl

/-- At the end of the text the reader stays where it is. -/
theorem call_of_nil {p : Position} (i : Nat) :
    (⟨p, []⟩ : Reader).call i = ⟨⟨.eof, "", p.span []⟩, [], none⟩ := by
  have hnext : (⟨p, []⟩ : Reader).next = (⟨⟨.eof, "", p.span []⟩, [], none⟩, ⟨p, []⟩) := by
    rw [next]
    rfl
  induction i with
  | zero => rw [call, after, hnext]
  | succ i ih => rw [call_succ, hnext, ih]

/-- Two readers that give the same now give the same for ever. -/
theorem call_congr {r' : Reader} (h : r.next = r'.next) (i : Nat) : r.call i = r'.call i := by
  cases i with
  | zero => exact congrArg Prod.fst h
  | succ i => rw [call_succ, call_succ, h]

/-- The readings of a text are the tokens up to the first end. -/
theorem scanFrom_succ (n : Nat) (r : Reader) : scanFrom (n + 1) r.place r.rest =
    match cut r.skipBlanks.rest with
    | none => [endPiece r.skipBlanks.place]
    | some c => ⟨c.shape, String.ofList c.taken, r.skipBlanks.place.span c.taken⟩ ::
      scanFrom n (r.skipBlanks.move c.taken c.rest).place c.rest := rfl

theorem ofPieces_eq_calls {n : Nat} (hn : r.rest.length < n) :
    ∃ k, Reading.ofPieces .lenient [] (scanFrom n r.place r.rest) =
        (List.range (k + 1)).map r.call ∧
      (∀ i < k, (r.call i).token.kind ≠ .eof) ∧ (r.call k).token.kind = .eof := by
  induction n generalizing r with
  | zero => exact absurd hn (Nat.not_lt_zero _)
  | succ n ih =>
    -- a reading and the readings behind it
    have hmore {t : Reading} {r' : Reader} (hnext : r.next = (t, r'))
        (ht : t.token.kind ≠ .eof) (hr' : r'.rest.length < n) :
        ∃ k, t :: Reading.ofPieces .lenient [] (scanFrom n r'.place r'.rest) =
            (List.range (k + 1)).map r.call ∧
          (∀ i < k, (r.call i).token.kind ≠ .eof) ∧ (r.call k).token.kind = .eof := by
      obtain ⟨k, hk, hgoing, hended⟩ := ih hr'
      have hfirst : r.call 0 = t := congrArg Prod.fst hnext
      have hrest (i : Nat) : r.call (i + 1) = r'.call i := by rw [call_succ, hnext]
      refine ⟨k + 1, ?_, fun i hi => ?_, hrest k ▸ hended⟩
      · rw [hk, List.range_succ_eq_map (n := k + 1), List.map_cons, List.map_map, hfirst]
        congr 1
        exact List.map_congr_left fun i _ => (hrest i).symm
      · cases i with
        | zero => exact hfirst ▸ ht
        | succ i => exact hrest i ▸ hgoing i (Nat.lt_of_succ_lt_succ hi)
    rw [scanFrom_succ]
    cases hc : cut r.skipBlanks.rest with
    | none =>
      have hcall : r.call 0 = .accept [] .eof (endPiece r.skipBlanks.place) :=
        congrArg Prod.fst (next_of_none hc)
      exact ⟨0, by rw [List.range_one, List.map_singleton, hcall]; rfl, by simp, hcall ▸ rfl⟩
    | some c =>
      have hlt : (r.skipBlanks.move c.taken c.rest).rest.length < n :=
        Nat.lt_of_lt_of_le (length_rest_lt_of_cut hc) (Nat.le_of_lt_succ hn)
      have hnext := next_of_cut hc
      rcases c with ⟨⟨kind, v⟩ | v | flaw, taken, rest⟩
      · have hread := hmore hnext (fun heof => shape_ne_eof hc v (heof ▸ rfl)) hlt
        cases v <;> exact hread
      · obtain ⟨k, hk, hgoing, hended⟩ := ih hlt
        have hsame := call_congr hnext
        refine ⟨k, ?_, fun i hi => hsame i ▸ hgoing i hi, hsame k ▸ hended⟩
        rw [show r.call = _ from funext hsame, ← hk]
        cases v <;> rfl
      · exact hmore hnext (by rintro ⟨⟩) hlt

/-! ## The whole text -/

/-- What stands before the token `i`, where the gaps and the tokens take turns. -/
def before (gap text : Nat → List Char) : Nat → List Char
  | 0 => gap 0
  | i + 1 => before gap text i ++ text i ++ gap (i + 1)

/-- The offset of the first byte of the token `i`. -/
def start (gap text : Nat → List Char) (i : Nat) : Nat := byteLength (before gap text i)

/-- The offset behind the last byte of the token `i`. -/
def stop (gap text : Nat → List Char) (i : Nat) : Nat := byteLength (before gap text i ++ text i)

/-- One more in front. -/
def push {α : Type} (a : α) (f : Nat → α) : Nat → α
  | 0 => a
  | i + 1 => f i

theorem before_push (gap₀ text₀ : List Char) (gap text : Nat → List Char) (i : Nat) :
    before (push gap₀ gap) (push text₀ text) (i + 1) = gap₀ ++ text₀ ++ before gap text i := by
  induction i with
  | zero => rfl
  | succ i ih =>
    rw [before, ih]
    simp only [push, before, List.append_assoc]

/-- The calls on `r` hand out the `n` tokens `text` with the gaps `gap` between them, and then the
end of the text for ever. -/
structure HandsOut (r : Reader) (n : Nat) (gap text : Nat → List Char) : Prop where
  whole : r.rest = before gap text n
  gaps : ∀ i ≤ n, ∃ rest, r.rest = before gap text i ++ rest ∧ Gap (gap i) rest
  nonempty : ∀ i < n, text i ≠ []
  spells : ∀ i < n, Spells (r.call i) (r.place.through (before gap text i)) (text i)
  ended : ∀ i, n ≤ i → r.call i = ⟨⟨.eof, "", (r.place.through r.rest).span []⟩, [], none⟩

theorem handsOut_of_ended (hgap : Gap r.rest [])
    (hnext : r.next =
      (⟨⟨.eof, "", (r.place.through r.rest).span []⟩, [], none⟩, r.move r.rest [])) :
    HandsOut r 0 (fun _ => r.rest) fun _ => [] where
  whole := rfl
  gaps i hi := ⟨[], by rw [Nat.le_zero.1 hi, before, List.append_nil], hgap⟩
  nonempty _ hi := absurd hi (Nat.not_lt_zero _)
  spells _ hi := absurd hi (Nat.not_lt_zero _)
  ended i _ := by
    cases i with
    | zero => exact congrArg Prod.fst hnext
    | succ i =>
      rw [call_succ, hnext]
      exact call_of_nil i

theorem HandsOut.push {t : Reading} {gap₀ text₀ rest : List Char} {n : Nat}
    {gap text : Nat → List Char} (hrest : r.rest = gap₀ ++ (text₀ ++ rest))
    (hgap : Gap gap₀ (text₀ ++ rest)) (htext : text₀ ≠ [])
    (ht : Spells t (r.place.through gap₀) text₀) (hnext : r.next = (t, r.move (gap₀ ++ text₀) rest))
    (h : HandsOut (r.move (gap₀ ++ text₀) rest) n gap text) :
    HandsOut r (n + 1) (push gap₀ gap) (push text₀ text) := by
  have hfirst : r.call 0 = t := congrArg Prod.fst hnext
  have hlater (i : Nat) : r.call (i + 1) = (r.move (gap₀ ++ text₀) rest).call i := by
    rw [call_succ, hnext]
  have hplace (cs : List Char) :
      r.place.through (gap₀ ++ text₀ ++ cs) = (r.move (gap₀ ++ text₀) rest).place.through cs := by
    rw [Position.through_append]
    rfl
  have hleft : r.rest = gap₀ ++ text₀ ++ rest := by rw [hrest, List.append_assoc]
  constructor
  case whole =>
    rw [before_push, hleft]
    exact congrArg _ h.whole
  case gaps =>
    rintro (_ | i) hi
    · exact ⟨_, hrest, hgap⟩
    · obtain ⟨behind, hbehind, hgap'⟩ := h.gaps i (Nat.le_of_succ_le_succ hi)
      refine ⟨behind, ?_, hgap'⟩
      rw [before_push, List.append_assoc _ _ behind, hleft]
      exact congrArg _ hbehind
  case nonempty =>
    rintro (_ | i) hi
    · exact htext
    · exact h.nonempty i (Nat.lt_of_succ_lt_succ hi)
  case spells =>
    rintro (_ | i) hi
    · rw [hfirst]
      exact ht
    · rw [hlater, before_push, hplace]
      exact h.spells i (Nat.lt_of_succ_lt_succ hi)
  case ended =>
    rintro (_ | i) hi
    · exact absurd hi (Nat.not_succ_le_zero n)
    · rw [hlater, h.ended i (Nat.le_of_succ_le_succ hi), hleft, hplace]
      rfl

/-- **Call after call, a reader hands out what its text is made of.** -/
theorem exists_handsOut (r : Reader) : ∃ n gap text, HandsOut r n gap text := by
  induction hlen : r.rest.length using Nat.strongRecOn generalizing r with
  | _ k ih =>
    have hstep := steps_next r
    generalize hnext : r.next = x at hstep
    cases hstep with
    | ended hgap => exact ⟨0, _, _, handsOut_of_ended hgap hnext⟩
    | @token gap text rest t hrest hgap htext ht =>
      have hshorter : rest.length < k := by
        have htaken := List.length_pos_iff.2 htext
        rw [← hlen, hrest, List.length_append, List.length_append]
        omega
      obtain ⟨n, gaps, texts, h⟩ := ih _ hshorter (r.move (gap ++ text) rest) rfl
      exact ⟨n + 1, _, _, h.push hrest hgap htext ht hnext⟩

/-- The calls find the `n` tokens `text` of the source, with the gaps `gap` between them. -/
structure Faithful (source : String) (n : Nat) (gap text : Nat → List Char)
    (call : Nat → Reading) : Prop where
  /-- Nothing is lost: the gaps and the tokens make up the text. -/
  whole : source.toList = before gap text n
  gaps : ∀ i ≤ n, ∃ rest, source.toList = before gap text i ++ rest ∧ Gap (gap i) rest
  /-- A token has bytes, and the next one does not begin before its end. -/
  ordered : ∀ i < n, start gap text i < stop gap text i ∧ stop gap text i ≤ start gap text (i + 1)
  span : ∀ i < n, (call i).token.span =
    ⟨lineBehind (before gap text i), colBehind (before gap text i), byteLength (text i)⟩
  slice : ∀ i < n, before gap text i ++ text i <+: source.toList
  lexeme : ∀ i < n, (call i).token.kind ≠ .error → (call i).token.text = String.ofList (text i)
  going : ∀ i < n, (call i).token.kind ≠ .eof
  /-- The end stands behind the whole text, however often it is asked for. -/
  ended : ∀ i, n ≤ i → call i =
    ⟨⟨.eof, "", ⟨lineBehind source.toList, colBehind source.toList, 0⟩⟩, [], none⟩

theorem HandsOut.faithful {source : String} {n : Nat} {gap text : Nat → List Char}
    (h : HandsOut (ofText source) n gap text) :
    Faithful source n gap text (ofText source).call where
  whole := h.whole
  gaps := h.gaps
  ordered i hi := by
    have hbytes : 0 < byteLength (text i) :=
      Nat.lt_of_lt_of_le (List.length_pos_iff.2 (h.nonempty i hi)) (length_le_byteLength _)
    simp only [start, stop, before, byteLength_append]
    omega
  span i hi := by
    have hspan := (h.spells i hi).span
    rw [ofText, through_eq] at hspan
    exact hspan
  slice i hi := by
    obtain ⟨rest, hrest, -⟩ := h.gaps (i + 1) hi
    refine ⟨gap (i + 1) ++ rest, ?_⟩
    rw [← List.append_assoc]
    exact hrest.symm
  lexeme i hi := (h.spells i hi).lexeme
  going i hi := (h.spells i hi).going
  ended i hi := by
    rw [h.ended i hi, ofText, through_eq]
    rfl

/-- **Reading a text loses nothing and counts right.** The readings of a text where POSIX plays no
part are the tokens that are handed out up to the first end of the text. -/
theorem calls_faithful (source : String) : ∃ n gap text,
    Faithful source n gap text (ofText source).call ∧
      readTokens .lenient source = (List.range (n + 1)).map (ofText source).call := by
  obtain ⟨n, gap, text, h⟩ := exists_handsOut (ofText source)
  have hfaithful := h.faithful
  obtain ⟨k, hk, hgoing, hended⟩ := ofPieces_eq_calls (Nat.lt_succ_self (ofText source).rest.length)
  -- both `n` and `k` are the number of tokens before the first end
  have hle : n ≤ k := by
    by_contra hlt
    exact hfaithful.going k (Nat.lt_of_not_le hlt) hended
  have hge : k ≤ n := by
    by_contra hlt
    refine hgoing n (Nat.lt_of_not_le hlt) ?_
    rw [hfaithful.ended n (Nat.le_refl n)]
  obtain rfl := Nat.le_antisymm hle hge
  exact ⟨n, gap, text, hfaithful, hk⟩

end Reader
end DeskCalc
