import DeskCalc.Proofs.Chunks.Expression
import DeskCalc.Proofs.Expression.Parts
import DeskCalc.Proofs.Rendering

/-!
# Numbers over several lines

A number goes on behind a line end that is continued by a backslash. Wherever its line is broken in
this way, it is read as one token with the same digits, and an expression with it is compiled to the
same code (`Continued.compiles_alike`). There is one exception: a point that begins a number has to
be followed by a digit at once (`Continued.point_alone`).
-/

namespace DeskCalc

namespace Scan

/-! ## Pieces before a place -/

/-- After the pieces `us` have been cut off `cs`, the text `es` is left. -/
inductive CutsTo : List Char → List Cut → List Char → Prop
  | nil {cs : List Char} : CutsTo cs [] cs
  | cons {cs es : List Char} {c : Cut} {us : List Cut} (h : cut (splitBlanks cs).2 = some c)
      (hrest : CutsTo c.rest us es) : CutsTo cs (c :: us) es

variable {k : Char} {cs ds es : List Char} {us vs : List Cut}

theorem CutsTo.cuts (h : CutsTo cs us es) (hv : Cuts es vs) : Cuts cs (us ++ vs) := by
  induction h with
  | nil => exact hv
  | cons h _ ih => exact .piece h (ih hv)

theorem CutsTo.mem (h : CutsTo cs us es) (hmem : k ∈ (splitBlanks es).2) :
    k ∈ (splitBlanks cs).2 := by
  induction h with
  | nil => exact hmem
  | cons h _ ih =>
    rw [← cut_append h]
    exact List.mem_append_right _ (mem_of_mem_splitBlanks (ih hmem))

/-- The same pieces are cut off with more text behind a barrier. -/
theorem CutsTo.append (h : CutsTo cs us es) (hk : Barrier k) (hmem : k ∈ (splitBlanks es).2)
    (ds : List Char) :
    CutsTo (cs ++ ds) (us.map fun c => { c with rest := c.rest ++ ds }) (es ++ ds) := by
  induction h with
  | nil => exact .nil
  | @cons cs es c us h hrest ih =>
    have hleft := hrest.mem hmem
    have hcs : k ∈ (splitBlanks cs).2 := (CutsTo.cons h hrest).mem hmem
    refine .cons (c := { c with rest := c.rest ++ ds }) ?_ (ih hmem)
    rw [splitBlanks_append_of_mem hk hcs]
    exact cut_append_of_mem hk h hleft

/-- Behind the text `before` a token begins at the character `k`. -/
def Fresh (before : List Char) (k : Char) : Prop :=
  ∃ us es, CutsTo (before ++ [k]) us es ∧ (splitBlanks es).2 = [k]

/-- A number that stands where a token begins is read as one token, whatever its text is. -/
theorem Fresh.exists_readings {before : List Char} (h : Fresh before k)
    (hk : continuesNumber k = true) (mode : Strictness) :
    ∃ rs, ∀ cs after, cut (k :: (cs ++ after)) = some ⟨.token .number none, k :: cs, after⟩ →
      (readTokens mode (String.ofList (before ++ k :: (cs ++ after)))).map Reading.bare =
        rs ++ (.number, String.ofList (k :: cs), false) ::
          (readTokens mode (String.ofList after)).map Reading.bare := by
  obtain ⟨us, es, hus, hes⟩ := h
  refine ⟨us.filterMap (Cut.bare? mode), fun cs after hcut => ?_⟩
  obtain ⟨vs, hvs⟩ := exists_cuts after
  have hmem : k ∈ (splitBlanks es).2 := hes ▸ List.mem_singleton_self k
  have hpiece : Cuts (es ++ (cs ++ after)) (⟨.token .number none, k :: cs, after⟩ :: vs) := by
    refine .piece ?_ hvs
    rw [splitBlanks_append_of_mem (.inr hk) hmem, hes]
    exact hcut
  have hcuts := (hus.append (.inr hk) hmem (cs ++ after)).cuts hpiece
  have htext : before ++ [k] ++ (cs ++ after) =
      (String.ofList (before ++ k :: (cs ++ after))).toList := by simp
  rw [← String.toList_ofList (l := after)] at hvs
  have hsame : Cut.bare? mode ∘ (fun c => { c with rest := c.rest ++ (cs ++ after) }) =
      Cut.bare? mode := rfl
  rw [map_bare_of_cuts mode (htext ▸ hcuts), map_bare_of_cuts mode hvs, List.filterMap_append,
    List.filterMap_map, hsame, List.append_assoc]
  rfl

/-! ## Digits and broken lines -/

/-- The end of a line. -/
inductive LineEnd
  | feed
  | returnFeed

/-- A backslash and the end of the line. -/
def LineEnd.continued : LineEnd → List Char
  | feed => ['\\', '\n']
  | returnFeed => ['\\', '\r', '\n']

/-- Characters, before each of which the line may be broken. -/
abbrev Folded := List (Option LineEnd × Char)

/-- The text of the characters with the line ends before them. -/
def Folded.text (xs : Folded) : List Char :=
  xs.flatMap fun x => (x.1.map LineEnd.continued).getD [] ++ [x.2]

theorem Folded.text_cons (e : Option LineEnd) (c : Char) (xs : Folded) :
    Folded.text ((e, c) :: xs) = (e.map LineEnd.continued).getD [] ++ c :: xs.text := by
  simp [Folded.text]

theorem splitDigits_folded {c : Char} (hc : continuesNumber c = true) (e : Option LineEnd)
    (cs : List Char) :
    splitDigits ((e.map LineEnd.continued).getD [] ++ c :: cs) =
      takeAlso ((e.map LineEnd.continued).getD []) (splitDigits (c :: cs)) := by
  rcases e with _ | _ | _
  · rfl
  all_goals simp [LineEnd.continued, splitDigits, hc]

theorem takeAlso_takeAlso (cs ds : List Char) (parts : List Char × List Char) :
    takeAlso cs (takeAlso ds parts) = takeAlso (cs ++ ds) parts := by
  simp [takeAlso]

theorem splitDigits_text {xs : Folded} (h : ∀ x ∈ xs, isDigit x.2 = true) (after : List Char) :
    splitDigits (xs.text ++ after) = takeAlso xs.text (splitDigits after) := by
  induction xs with
  | nil => rfl
  | cons x xs ih =>
    obtain ⟨hx, hxs⟩ := List.forall_mem_cons.1 h
    rw [Folded.text_cons, List.append_assoc, List.cons_append,
      splitDigits_folded (by simp [continuesNumber, hx]), splitDigits_cons hx, ih hxs,
      takeAlso_takeAlso, takeAlso_takeAlso]
    simp

/-- What stands before the digits of a number belongs to it. -/
theorem splitNumber_of_splitDigits {front : List Char}
    (h : splitDigits cs = takeAlso front (splitDigits ds)) :
    splitNumber cs = takeAlso front (splitNumber ds) := by
  unfold splitNumber
  rw [h]
  rcases splitDigits ds with ⟨whole, _ | ⟨c, rest⟩⟩
  · rfl
  · by_cases hc : c = '.'
    · subst hc
      simp [takeAlso]
    · simp only [takeAlso]
      split
      · next heq => simp_all
      · split
        · next heq => simp_all
        · rfl

theorem splitNumber_point (cs : List Char) :
    splitNumber ('.' :: cs) = takeAlso ['.'] (splitDigits cs) := by
  have hpoint : splitDigits ('.' :: cs) = ([], '.' :: cs) :=
    splitDigits_cons_of_not (fun _ h => absurd h (by decide)) (fun _ h => absurd h (by decide))
      (by decide)
  rw [splitNumber, hpoint]
  rfl

/-- A folded number is cut off up to its last character, and behind it the text goes on as it does
behind the number in one line. -/
theorem splitNumber_text {xs : Folded} (h : ∀ x ∈ xs, continuesNumber x.2 = true)
    (hpoint : (xs.map (·.2)).count '.' ≤ 1) (after : List Char) :
    splitNumber (xs.text ++ after) = takeAlso xs.text
      (if '.' ∈ xs.map (·.2) then splitDigits after else splitNumber after) := by
  induction xs with
  | nil => rfl
  | cons x xs ih =>
    obtain ⟨hx, hxs⟩ := List.forall_mem_cons.1 h
    obtain ⟨e, c⟩ := x
    rw [Folded.text_cons, List.append_assoc, List.cons_append,
      splitNumber_of_splitDigits (splitDigits_folded hx e _)]
    rw [List.map_cons, List.count_cons] at hpoint
    by_cases hc : c = '.'
    · subst hc
      have hnot : '.' ∉ xs.map (·.2) := List.count_eq_zero.1 (by simpa using hpoint)
      have hdigits : ∀ x ∈ xs, isDigit x.2 = true := fun x hx => by
        have hne : x.2 ≠ '.' := fun he => hnot (he ▸ List.mem_map_of_mem hx)
        simpa [continuesNumber, hne] using hxs x hx
      rw [splitNumber_point, splitDigits_text hdigits, takeAlso_takeAlso, takeAlso_takeAlso]
      simp
    · have hdigit : isDigit c = true := by simpa [continuesNumber, hc] using hx
      have hcs := splitNumber_of_splitDigits (splitDigits_cons hdigit (Folded.text xs ++ after))
      rw [hcs, ih hxs (by omega), takeAlso_takeAlso, takeAlso_takeAlso, List.map_cons]
      simp only [List.mem_cons, Ne.symm hc, false_or, List.append_assoc, List.cons_append,
        List.nil_append]

end Scan

open Scan

/-- A number literal, and the places inside it where its line is broken. -/
structure Continued where
  first : Char
  rest : Folded

namespace Continued

/-- The literal in one line. -/
def plain (n : Continued) : List Char := n.first :: n.rest.map (·.2)

/-- The literal with its line broken. -/
def text (n : Continued) : List Char := n.first :: n.rest.text

/-- The literal has digits and at most one point. -/
structure IsNumber (n : Continued) : Prop where
  chars : ∀ c ∈ n.plain, continuesNumber c = true
  point : n.plain.count '.' ≤ 1
  digit : ∃ c ∈ n.plain, isDigit c = true

instance (n : Continued) : Decidable n.IsNumber :=
  decidable_of_iff (n.plain.all continuesNumber = true ∧ n.plain.count '.' ≤ 1 ∧
      n.plain.any isDigit = true)
    ⟨fun h => ⟨List.all_eq_true.1 h.1, h.2.1, List.any_eq_true.1 h.2.2⟩,
      fun h => ⟨List.all_eq_true.2 h.chars, h.point, List.any_eq_true.2 h.digit⟩⟩

/-- The line is not broken right behind a point that begins the literal. -/
def PointKept (n : Continued) : Prop := n.first = '.' → ∀ x ∈ n.rest.head?, x.1 = none

/-- The literal with its line not broken. -/
def unbroken (n : Continued) : Continued := ⟨n.first, n.rest.map fun x => (none, x.2)⟩

variable {n : Continued} {after : List Char}

theorem plain_unbroken (n : Continued) : n.unbroken.plain = n.plain := by
  simp [plain, unbroken, Function.comp_def]

theorem text_unbroken (n : Continued) : n.unbroken.text = n.plain := by
  rw [text, unbroken, Folded.text, List.flatMap_map]
  exact congrArg (n.first :: ·) List.map_eq_flatMap.symm

theorem pointKept_unbroken (n : Continued) : n.unbroken.PointKept := by
  intro _ x hx
  obtain ⟨y, -, rfl⟩ := Option.map_eq_some_iff.1 (List.head?_map ▸ hx)
  rfl

theorem isNumber_unbroken (h : n.IsNumber) : n.unbroken.IsNumber := by
  constructor <;> rw [plain_unbroken]
  exacts [h.chars, h.point, h.digit]

theorem splitNumber_continued (h : n.IsNumber) (after : List Char) :
    splitNumber (n.text ++ after) =
      takeAlso n.text (if '.' ∈ n.plain then splitDigits after else splitNumber after) := by
  have hnumber := splitNumber_text
    (fun x (hx : x ∈ ((none, n.first) :: n.rest : Folded)) =>
      h.chars x.2 (List.mem_map_of_mem (f := (·.2)) hx)) h.point after
  rwa [Folded.text_cons] at hnumber

/-- Where the literal ends in one line, it ends with its line broken. -/
theorem splitNumber_ends (h : n.IsNumber) (hends : splitNumber (n.plain ++ after) = (n.plain, after)) :
    splitNumber (n.text ++ after) = (n.text, after) := by
  have hbehind := splitNumber_continued (isNumber_unbroken h) after
  rw [text_unbroken, plain_unbroken, hends] at hbehind
  rw [splitNumber_continued h]
  simp only [takeAlso, Prod.mk.injEq, List.self_eq_append_right] at hbehind ⊢
  simp [← hbehind.2, hbehind.1]

theorem cut_continued (h : n.IsNumber) (hpoint : n.PointKept)
    (hends : splitNumber (n.plain ++ after) = (n.plain, after)) :
    cut (n.text ++ after) = some ⟨.token .number none, n.text, after⟩ := by
  refine (cut_number rfl ?_ (splitNumber_ends h hends)).2
  have hfirst := h.chars n.first List.mem_cons_self
  simp only [continuesNumber, Bool.or_eq_true, decide_eq_true_eq] at hfirst
  rcases hfirst with hdigit | hfirst
  · simp [hdigit]
  -- behind the point there is a digit, as there is no other point
  obtain ⟨first, rest⟩ := n
  obtain rfl : first = '.' := hfirst
  rcases rest with _ | ⟨⟨e, c⟩, rest⟩
  · obtain ⟨d, hd, hdigit⟩ := h.digit
    cases List.mem_singleton.1 hd
    cases hdigit
  · cases hpoint rfl (e, c) rfl
    have hc : c ≠ '.' := by
      rintro rfl
      have := h.point
      simp [plain] at this
    have hdigit : isDigit c = true := by
      simpa [continuesNumber, hc] using h.chars c (by simp [plain])
    simp [Folded.text_cons, hdigit]

theorem digits_text (h : n.IsNumber) :
    Compile.digits (String.ofList n.text) = String.ofList n.plain := by
  obtain ⟨first, rest⟩ := n
  have hrest : rest.text.filter continuesNumber = rest.map (·.2) := by
    have hall : ∀ x ∈ rest, continuesNumber x.2 = true :=
      fun x hx => h.chars x.2 (List.mem_cons_of_mem _ (List.mem_map_of_mem hx))
    clear h
    induction rest with
    | nil => rfl
    | cons x rest ih =>
      obtain ⟨hx, hrest⟩ := List.forall_mem_cons.1 hall
      have hends : ((x.1.map LineEnd.continued).getD []).filter continuesNumber = [] := by
        rcases x.1 with _ | _ | _ <;> rfl
      rw [Folded.text_cons, List.filter_append, hends, List.filter_cons, if_pos hx, ih hrest]
      rfl
  rw [Compile.digits, String.toList_ofList, text, List.filter_cons,
    if_pos (h.chars first List.mem_cons_self), hrest]
  rfl

end Continued

/-! ## Two texts that are read alike -/

/-- Both are the same token apart from its place and the broken lines in a number. -/
structure Reading.Like (r R : Reading) : Prop where
  token : r.token.Like R.token
  error : R.error.isSome = r.error.isSome

/-- Both passes are at the same place, and their sessions are the same but for lines. -/
structure Pass.Resembles (p P : Pass) : Prop
    extends Session.Alike p.toSession P.toSession where
  allowed : P.autoAllowed = p.autoAllowed
  previous : P.previous = p.previous
  token : p.token.Like P.token
  upcoming : List.Forall₂ Reading.Like p.upcoming P.upcoming

theorem Token.Like.symm {t T : Token} (h : t.Like T) : T.Like t :=
  ⟨h.kind.symm, fun hk => (h.digits (h.kind ▸ hk)).symm, fun hk => (h.text (h.kind ▸ hk)).symm⟩

theorem Pass.Resembles.symm {p P : Pass} (h : p.Resembles P) : P.Resembles p where
  program := h.program.symm
  strictness := h.strictness.symm
  blocks := h.blocks.symm
  exits := h.exits.symm
  continues := h.continues.symm
  operators := h.operators.symm
  target := h.target.symm
  autoAllowed := h.allowed ▸ id
  checkpoint := h.checkpoint.symm
  allowed := h.allowed.symm
  previous := h.previous.symm
  token := h.token.symm
  upcoming := h.upcoming.flip.imp fun _ _ hr => ⟨hr.token.symm, hr.error.symm⟩

namespace Compile

variable {α : Type} {p P : Pass}

/-- What `m` does on `p`, `M` does on `P`. -/
def Imitates (m : Compile α) (p : Pass) (M : Compile α) (P : Pass) : Prop :=
  ∀ a q, m p = .ok a q → ∃ Q, M P = .ok a Q ∧ q.Resembles Q

theorem imitates_advance (h : p.Resembles P) : Imitates advance p advance P := by
  intro a q hq
  cases hp : p.upcoming with
  | nil =>
    have hP : P.upcoming = [] := List.forall₂_nil_left_iff.1 (hp ▸ h.upcoming)
    rw [advance_of_nil hp] at hq
    cases hq
    exact ⟨_, advance_of_nil hP, { h with previous := h.token.kind }⟩
  | cons r rs =>
    obtain ⟨R, Rs, hr, hrs, hP⟩ := List.forall₂_cons_left_iff.1 (hp ▸ h.upcoming)
    rw [advance_of_cons hp] at hq
    cases herror : r.error with
    | some n =>
      rw [herror] at hq
      cases hq
    | none =>
      rw [herror] at hq
      cases hq
      have hnone : R.error = none := by simpa [herror] using hr.error
      refine ⟨moved P R Rs, by rw [advance_of_cons hP, hnone], ?_⟩
      exact { h with previous := h.token.kind, token := hr.token, upcoming := hrs }

theorem Reprograms.imitates {m M : Compile α} (h : Reprograms m p M P) (hp : p.Resembles P) :
    Imitates m p M P := by
  intro a q hq
  obtain ⟨R, R', rfl, hM, hR⟩ := h a q hq
  exact ⟨_, hM, { hp with program := hR }⟩

theorem imitates_report (h : p.Resembles P) (v : Violation) (span span' : Span) :
    Imitates (report v span) p (report v span') P := by
  intro a q hq
  rw [report, get_bind] at hq
  rw [report, get_bind, h.strictness]
  cases hmode : p.strictness with
  | lenient =>
    rw [hmode] at hq
    cases hq
    exact ⟨P, rfl, h⟩
  | warn =>
    rw [hmode] at hq
    cases hq
    exact ⟨_, rfl, { h with }⟩
  | strict =>
    rw [hmode] at hq
    cases hq

/-- A bound that is taken from the tokens to come is the same for both passes. -/
theorem imitates_bounded {f F : List Reading → Compile α} (h : p.Resembles P) (hF : Bounded F)
    (hgood : ∀ u, Imitates (f u) p (F u) P) : Imitates (f p.upcoming) p (F P.upcoming) P := by
  intro a q hq
  obtain ⟨Q, hQ, hlike⟩ := hgood p.upcoming a q hq
  have hlength := h.upcoming.length_eq
  refine ⟨Q, ?_, hlike⟩
  rcases hF p.upcoming P.upcoming (Nat.le_of_eq hlength) P with hP | ⟨r, hr⟩
  · rw [← hP, hQ]
  · cases hQ.symm.trans hr

/-- **What both passes do alike.** -/
def resembling : Parts where
  Rel := Pass.Resembles
  Out := Imitates
  Like := Token.Like
  Fit _ := True
  reads := true
  under := []
  like h := h
  view h := ⟨h.token, h.previous, h.operators.trans (List.append_nil _).symm⟩
  fit _ _ := trivial
  pure {_ p P} h a b q hq := by
    cases hq
    exact ⟨P, rfl, h⟩
  refuse _ _ _ _ _ _ hq := nomatch hq
  bind hm hf b r hr := by
    obtain ⟨a, q, hq, hr⟩ := bind_eq_ok hr
    obtain ⟨Q, hQ, hlike⟩ := hm a q hq
    rw [bind_of_ok hQ]
    exact hf a q Q hq hlike b r hr
  get h := h
  exceed _ _ _ hq := nomatch hq
  bounded h _ := imitates_bounded h
  advance := imitates_advance
  atDelimiter {p P} h a q hq := by
    cases hq
    have hdelimited : isDelimited P = isDelimited p := by
      unfold isDelimited
      rw [h.token.kind, h.blocks, h.previous]
    exact ⟨P, congrArg (EStateM.Result.ok · P) hdelimited, h⟩
  report h _ v := imitates_report h v _ _
  operators h _ _ hops a q hq := by
    cases hq
    exact ⟨_, rfl, { h with operators := hops.trans (List.append_nil _) }⟩
  emit h _ _ := (reprograms_emitWith h.toAlike _ _).imitates h
  enter h _ e _ := (reprograms_intern h.toAlike (e.interns _ _)).imitates h
  suppressValue h t := (reprograms_suppressValue h.toAlike t).imitates h

instance permits_resembling (ctx : Context) : Permits resembling ctx := ⟨fun _ => rfl⟩

theorem expression_imitates (h : p.Resembles P) (ctx : Context) (ends : Ends) :
    Imitates (expression ctx ends) p (expression ctx ends) P :=
  resembling.run h

end Compile

/-- The pass has read the first `k` tokens of the text, and is at the next one. -/
def Pass.ReadsFrom (p : Pass) (text : List Char) (k : Nat) : Prop :=
  ∃ r, (readTokens p.strictness (String.ofList text)).drop k = r :: p.upcoming ∧ p.token = r.token

/-- A chunk begins with the first token of its text. -/
theorem Pass.readsFrom_of_advance {s : Session} {text : List Char} {p : Pass}
    (h : Compile.advance (Pass.start s (String.ofList text)) = .ok () p) : p.ReadsFrom text 0 := by
  obtain ⟨rs, last, hrs⟩ := exists_readTokens_eq s.strictness (String.ofList text)
  obtain ⟨r, rest, hr⟩ := List.exists_cons_of_ne_nil (hrs.1 ▸ by simp :
    readTokens s.strictness (String.ofList text) ≠ [])
  rw [Compile.advance_of_cons (p := Pass.start s (String.ofList text)) hr] at h
  split at h
  · cases h
  · cases h
    exact ⟨r, hr, rfl⟩

theorem Reading.Like.of_bare {r R : Reading} (h : R.bare = r.bare) : r.Like R := by
  simp only [Reading.bare, Prod.mk.injEq] at h
  exact ⟨⟨h.1, fun _ => by rw [h.2.1], fun _ => h.2.1⟩, h.2.2⟩

theorem forall₂_like {rs Rs : List Reading} (h : Rs.map Reading.bare = rs.map Reading.bare) :
    List.Forall₂ Reading.Like rs Rs := by
  induction rs generalizing Rs with
  | nil =>
    cases List.map_eq_nil_iff.1 h
    exact .nil
  | cons r rs ih =>
    obtain ⟨R, Rs, rfl, hR, hRs⟩ := List.map_eq_cons_iff.1 h
    exact .cons (.of_bare hR) (ih hRs)

/-- Two texts that differ in a number with the same digits are read alike. -/
theorem forall₂_like_of_number {A B : List Reading} {rs qs : List (Token.Kind × String × Bool)}
    {x y : String} (hA : A.map Reading.bare = rs ++ (.number, x, false) :: qs)
    (hB : B.map Reading.bare = rs ++ (.number, y, false) :: qs)
    (h : Compile.digits y = Compile.digits x) : List.Forall₂ Reading.Like A B := by
  obtain ⟨A₁, A₂, rfl, hA₁, hA₂⟩ := List.map_eq_append_iff.1 hA
  obtain ⟨B₁, B₂, rfl, hB₁, hB₂⟩ := List.map_eq_append_iff.1 hB
  obtain ⟨a, A₂, rfl, ha, hA₂⟩ := List.map_eq_cons_iff.1 hA₂
  obtain ⟨b, B₂, rfl, hb, hB₂⟩ := List.map_eq_cons_iff.1 hB₂
  refine List.rel_append (forall₂_like (hB₁.trans hA₁.symm)) (.cons ?_
    (forall₂_like (hB₂.trans hA₂.symm)))
  simp only [Reading.bare, Prod.mk.injEq] at ha hb
  refine ⟨⟨hb.1.trans ha.1.symm, fun _ => by rw [ha.2.1, hb.2.1, h], fun hk => ?_⟩,
    hb.2.2.trans ha.2.2.symm⟩
  rw [ha.1] at hk
  rcases hk with hk | hk <;> cases hk

theorem Pass.ReadsFrom.resembles {p P : Pass} {a b : List Char} {k : Nat} (hp : p.ReadsFrom a k)
    (hP : P.ReadsFrom b k) (h : Session.Alike p.toSession P.toSession)
    (hallowed : P.autoAllowed = p.autoAllowed) (hprevious : P.previous = p.previous)
    (hlike : List.Forall₂ Reading.Like (readTokens p.strictness (String.ofList a))
      (readTokens p.strictness (String.ofList b))) : p.Resembles P := by
  obtain ⟨r, hr, htoken⟩ := hp
  obtain ⟨R, hR, hToken⟩ := hP
  have hdrop := List.forall₂_drop k hlike
  rw [h.strictness] at hR
  rw [hr, hR, List.forall₂_cons] at hdrop
  exact { h with
    allowed := hallowed
    previous := hprevious
    token := by rw [htoken, hToken]; exact hdrop.1.token
    upcoming := hdrop.2 }

namespace Continued

/-- **A number may be continued over lines.** Broken anywhere but behind a point that begins it, it
is read as one token between the same ones, and an expression that begins anywhere in the text is
compiled with it to the same code and the same constants as with the number in one line. -/
theorem compiles_alike (n : Continued) (before after : List Char) (hnumber : n.IsNumber)
    (hpoint : n.PointKept) (hfresh : Fresh before n.first)
    (hends : splitNumber (n.plain ++ after) = (n.plain, after)) :
    (∀ mode, ∃ rs qs,
      (readTokens mode (String.ofList (before ++ (n.plain ++ after)))).map Reading.bare =
        rs ++ (.number, String.ofList n.plain, false) :: qs ∧
      (readTokens mode (String.ofList (before ++ (n.text ++ after)))).map Reading.bare =
        rs ++ (.number, String.ofList n.text, false) :: qs) ∧
    ∀ (p P : Pass) (k : Nat), p.ReadsFrom (before ++ (n.plain ++ after)) k →
      P.ReadsFrom (before ++ (n.text ++ after)) k → Session.Alike p.toSession P.toSession →
      P.autoAllowed = p.autoAllowed → P.previous = p.previous → ∀ ctx ends,
        Compile.Imitates (Compile.expression ctx ends) p (Compile.expression ctx ends) P ∧
        Compile.Imitates (Compile.expression ctx ends) P (Compile.expression ctx ends) p := by
  have hcut := cut_continued hnumber hpoint hends
  have hplain : cut (n.plain ++ after) = some ⟨.token .number none, n.plain, after⟩ := by
    have hcut' := cut_continued (isNumber_unbroken hnumber) (pointKept_unbroken n)
      (by rwa [plain_unbroken])
    rwa [text_unbroken] at hcut'
  have hreads (mode : Strictness) : ∃ rs qs,
      (readTokens mode (String.ofList (before ++ (n.plain ++ after)))).map Reading.bare =
        rs ++ (.number, String.ofList n.plain, false) :: qs ∧
      (readTokens mode (String.ofList (before ++ (n.text ++ after)))).map Reading.bare =
        rs ++ (.number, String.ofList n.text, false) :: qs := by
    obtain ⟨rs, hrs⟩ := hfresh.exists_readings (hnumber.chars n.first List.mem_cons_self) mode
    exact ⟨rs, _, hrs _ after hplain, hrs _ after hcut⟩
  refine ⟨hreads, fun p P k hp hP halike hallowed hprevious ctx ends => ?_⟩
  obtain ⟨rs, qs, hA, hB⟩ := hreads p.strictness
  have hdigits : Compile.digits (String.ofList n.text) = Compile.digits (String.ofList n.plain) := by
    rw [digits_text hnumber, ← text_unbroken, digits_text (isNumber_unbroken hnumber),
      plain_unbroken, text_unbroken]
  have hlike := hp.resembles hP halike hallowed hprevious (forall₂_like_of_number hA hB hdigits)
  exact ⟨Compile.expression_imitates hlike ctx ends, Compile.expression_imitates hlike.symm ctx ends⟩

/-- The number `12.5` in three lines. -/
def threeLines : Continued := ⟨'1', [(some .feed, '2'), (none, '.'), (some .returnFeed, '5')]⟩

/-- A subscript is compiled alike with its number in one line and in three. -/
theorem threeLines_alike :
    threeLines.text = "1\\\n2.\\\r\n5".toList ∧
    ∃ p P, Compile.advance (Pass.start (.new {}) "x = a[12.5] + 1\n") = .ok () p ∧
      Compile.advance (Pass.start (.new {}) "x = a[1\\\n2.\\\r\n5] + 1\n") = .ok () P ∧ ∀ ctx ends,
        Compile.Imitates (Compile.expression ctx ends) p (Compile.expression ctx ends) P := by
  have hfresh : Fresh "x = a[".toList '1' :=
    ⟨_, _, .cons rfl (.cons rfl (.cons rfl (.cons rfl .nil))), rfl⟩
  have halike := (compiles_alike threeLines "x = a[".toList "] + 1\n".toList (by decide)
    (fun h => absurd h (by decide)) hfresh (by decide)).2
  have hp : Compile.advance (Pass.start (.new {}) "x = a[12.5] + 1\n") = .ok () _ := rfl
  have hP : Compile.advance (Pass.start (.new {}) "x = a[1\\\n2.\\\r\n5] + 1\n") = .ok () _ := rfl
  refine ⟨by decide, _, _, hp, hP, fun ctx ends => ?_⟩
  exact (halike _ _ 0 (Pass.readsFrom_of_advance hp) (Pass.readsFrom_of_advance hP)
    ⟨rfl, rfl, rfl, rfl, rfl, rfl, rfl, id, rfl⟩ rfl rfl ctx ends).1

/-- The number `.5` in two lines. -/
def afterPoint : Continued := ⟨'.', [(some .feed, '5')]⟩

/-- A point that begins a number has to be followed by a digit at once. -/
theorem point_alone :
    afterPoint.IsNumber ∧ afterPoint.plain = ".5".toList ∧ afterPoint.text = ".\\\n5".toList ∧
      ((Session.new {}).compile ".5\n").1 = .ok .ready ∧
      ((Session.new {}).compile ".\\\n5\n").1.toOption = none := by
  refine ⟨by decide, by decide, by decide, by decide +kernel, by decide +kernel⟩

end Continued

end DeskCalc
