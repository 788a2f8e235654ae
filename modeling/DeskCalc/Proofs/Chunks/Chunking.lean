import DeskCalc.Proofs.Chunks.InputEnd
import DeskCalc.Proofs.Chunks.Joined

/-!
# Chunking

Chunks that are compiled one after the other (`Session.compileEach`) make the program that their text
makes when it is compiled at once, lines apart, and leave the same open (`compile_join_of_apart`).

Behind a statement semicolons are skipped within a chunk, and at the beginning of a chunk a semicolon
is a statement. So a chunk must not begin with a semicolon while a body is awaited. The same goes for
an `else` that begins a chunk: behind the body of an `if` without brace nothing is skipped after the
word. And a closing brace that ends the body of an `if` looks for an `else` only within its chunk.
`Session.Apart` excludes these three, and none of them can be left out (`compile_join_ne`). It also
excludes a semicolon that begins a chunk while an `if` waits for its `else`. Alone it ends the wait;
where a statement follows it in the chunk the programs agree all the same.
-/

namespace DeskCalc

open Compile Pass

variable {ws us : List Sight} {p P q Q r R : Pass} {s t : Session} {text : String}
  {texts : List String} {status : Status} {last answered : Status × Session}

/-- A text ends with its last token, and before it with a line feed if it ends a line. -/
theorem exists_sights_eq (text : String) :
    ∃ us, sights text = us ++ [.eof] ∧ ∀ u ∈ us, u.1.1 ≠ .eof := by
  obtain ⟨cuts, hcuts⟩ := Scan.exists_cuts text.toList
  obtain ⟨rs, r, hrs, heof, hne⟩ := exists_readTokens_eq .lenient text
  refine ⟨cuts.filterMap Scan.Cut.sight?, Scan.sights_eq hcuts, ?_⟩
  have hmap : rs.map Reading.sight = cuts.filterMap Scan.Cut.sight? := by
    have h := Scan.sights_eq hcuts
    rw [sights, hrs, List.map_append] at h
    exact (List.append_inj' h rfl).1
  rw [← hmap]
  intro u hu
  obtain ⟨s, hs, rfl⟩ := List.mem_map.1 hu
  rw [Reading.sight, Token.word_fst]
  exact hne s hs

theorem getLast?_of_endsLine (h : EndsLine text) (hus : sights text = us ++ [.eof]) :
    us.getLast?.map (·.1.1) = some .newline := by
  obtain ⟨cuts, hcuts⟩ := Scan.exists_cuts text.toList
  obtain ⟨c, hc, hshape⟩ := lastLine_of_endsLine h hcuts
  obtain rfl := (List.append_inj' (hus.symm.trans (Scan.sights_eq hcuts)) rfl).1
  obtain ⟨init, rfl⟩ := List.getLast?_eq_some_iff.1 hc
  have hsight : c.sight? = some ((.newline, ""), false) := by
    simp [Scan.Cut.sight?, hshape, Token.word]
  simp [List.filterMap_append, hsight]

/-! ## The beginning of a chunk -/

/-- The pass at the first token of a chunk. -/
structure Session.Opens (s : Session) (text : String) (p : Pass) : Prop where
  session : p.toSession = { s with warnings := p.warnings }
  quitting : p.quitting = false
  previous : p.previous = .newline
  sights : p.sights = DeskCalc.sights text

theorem sights_start (hs : s.strictness = .lenient) :
    (Pass.start s text).sights = ((.newline, ""), false) :: sights text := by
  rw [Pass.sights, Pass.start, hs]
  rfl

theorem opens_of_advance (hs : s.strictness = .lenient)
    (hp : advance (Pass.start s text) = .ok () p) : s.Opens text p := by
  have hup : (Pass.start s text).upcoming ≠ [] := by
    obtain ⟨rs, r, hrs, -⟩ := exists_readTokens_eq s.strictness text
    simp [Pass.start, hrs]
  have hskip := skips_of_advance hup hp
  refine ⟨hskip.session, hskip.quitting, hskip.previous, ?_⟩
  exact (List.cons.inj (hskip.sights.symm.trans (sights_start hs))).2

theorem exists_opens (hs : s.strictness = .lenient) (h : Readable (sights text)) :
    ∃ p, advance (Pass.start s text) = .ok () p ∧ s.Opens text p := by
  obtain ⟨us, hus, -⟩ := exists_sights_eq text
  obtain ⟨w, ws, hw⟩ := List.exists_cons_of_ne_nil (l := sights text) (by simp [hus])
  obtain ⟨p, hp, -⟩ := exists_advance ((sights_start hs).trans (congrArg (_ :: ·) hw))
    (h.clear w (by simp [hw]))
  exact ⟨p, hp, opens_of_advance hs hp⟩

/-- The items of a chunk, from its first token on. -/
def items (p : Pass) : EStateM.Result Stop Pass Status :=
  iterate (fun (_ : Unit) => nextItem) (List.replicate (itemBound p) ()) () p

theorem chunk_of_advance (hp : advance (Pass.start s text) = .ok () p) :
    chunk (Pass.start s text) = items p := by
  rw [chunk, bind_of_ok hp]
  rfl

theorem opens_of_chunk (hs : s.strictness = .lenient)
    (h : chunk (Pass.start s text) = .ok status r) :
    ∃ p, advance (Pass.start s text) = .ok () p ∧ s.Opens text p ∧ items p = .ok status r := by
  rw [chunk] at h
  obtain ⟨_, p, hp, hr⟩ := bind_eq_ok h
  exact ⟨p, hp, opens_of_advance hs hp, hr⟩

/-- The passes at which the items of a chunk begin. -/
def Session.itemStarts (s : Session) (text : String) : List Pass :=
  match advance (Pass.start s text) with
  | .ok _ p => Compile.itemStarts (itemBound p + 1) p
  | .error _ _ => []

theorem steps_of_items {good : Pass → Prop} (hp : advance (Pass.start s text) = .ok () p)
    (hr : items p = .ok status r) (hquit : status ≠ .quit)
    (hgood : ∀ q ∈ s.itemStarts text, good q) :
    Steps good p r ∧ r.token.kind = .eof ∧ status = r.status := by
  rw [Session.itemStarts, hp] at hgood
  refine steps_of_iterate _ hr hquit ?_
  rw [List.length_replicate]
  exact hgood

theorem lenient_of_meets (h : Meets ws p P) : p.strictness = .lenient := by
  rcases h with hahead | hbeyond | ⟨R, hawaits, -⟩
  · exact hahead.lenient
  · exact hbeyond.lenient
  · exact hawaits.beyond.lenient

/-- A chunk that is compiled has no error in it, and it is read to its end. -/
theorem atEnd_of_items (hs : s.strictness = .lenient)
    (hp : advance (Pass.start s text) = .ok () p) (hr : items p = .ok status r)
    (hquit : status ≠ .quit) : Readable (sights text) ∧ r.AtEnd ∧ r.strictness = .lenient := by
  have hopens := opens_of_advance hs hp
  obtain ⟨us, hus, hne⟩ := exists_sights_eq text
  have hlast : p.sights.getLast? = some .eof := by rw [hopens.sights, hus]; simp
  have hlenient : p.strictness = .lenient := by rw [hopens.session]; exact hs
  have hgood (q : Pass) (_ : q ∈ s.itemStarts text) : Fitting [.eof] q :=
    fun _ => .inr (.inr (by decide))
  obtain ⟨hsteps, heof, -⟩ := steps_of_items hp hr hquit hgood
  obtain ⟨⟨xs, hxs, hclear⟩, P, -, hmeets⟩ :=
    meets_of_steps readable_eof (ahead_self hlenient hlast) hsteps heof
  obtain ⟨ts, hts, rfl⟩ := exists_rest hxs (hopens.sights.trans hus)
  cases ts with
  | nil =>
    refine ⟨⟨hopens.sights ▸ hlast, ?_⟩, hts, lenient_of_meets hmeets⟩
    rw [hus, List.append_nil]
    simpa [Sight.eof, or_imp, forall_and] using hclear
  | cons t ts => exact absurd ((kind_of_sights hts).symm.trans heof) (hne t (by simp))

/-! ## Chunks one after the other -/

namespace Session

/-- Compile one more chunk: the status that is answered, and the session. There is none if the chunk is
refused, or if it has a `quit`. -/
def compileNext (answered : Status × Session) (text : String) : Option (Status × Session) :=
  match answered.2.compile text with
  | (.ok .quit, _) => none
  | (.ok status, s) => some (status, s)
  | (.error _, _) => none

/-- Compile chunks one after the other: the last status, and the session. -/
def compileEach (s : Session) (texts : List String) : Option (Status × Session) :=
  texts.foldlM compileNext (s.status, s)

/-- Where a body or an `else` is awaited, the text begins neither with a semicolon nor with `else` and
a semicolon, line feeds apart. -/
def Separate (s : Session) (text : String) : Prop :=
  s.blocks.top.awaited = true ∨ s.blocks.top.ifEnded = true →
    ¬[.symbol .semicolon] <+: solid (sights text) ∧
      ¬[.keyword .elseBranch, .symbol .semicolon] <+: solid (sights text)

/-- Each of the chunks stands apart from those before it, and where an `else` is behind a chunk no
closing brace of the chunk ends a body that has none. -/
def Apart (s : Session) : List String → Prop
  | [] => True
  | text :: texts =>
    s.Separate text ∧ (∀ p ∈ s.itemStarts text, Fitting (sights (String.join texts)) p) ∧
      (s.compile text).2.Apart texts

instance (s : Session) (text : String) : Decidable (s.Separate text) :=
  inferInstanceAs (Decidable (_ → _))

instance (ws : List Sight) (p : Pass) : Decidable (Fitting ws p) :=
  inferInstanceAs (Decidable (_ → _))

instance decidableApart : (s : Session) → (texts : List String) → Decidable (s.Apart texts)
  | _, [] => isTrue trivial
  | s, text :: texts =>
    have := decidableApart (s.compile text).2 texts
    inferInstanceAs (Decidable (_ ∧ _ ∧ _))

theorem of_compileNext {answered next : Status × Session} (h : compileNext answered text = some next) :
    ∃ r, chunk (Pass.start answered.2 text) = .ok next.1 r ∧ next.1 ≠ .quit ∧
      next.2 = r.toSession ∧ (answered.2.compile text).2 = next.2 := by
  rw [compileNext] at h
  cases hchunk : chunk (Pass.start answered.2 text) with
  | ok status r =>
    rw [compile_of_ok hchunk] at h ⊢
    cases status with
    | quit => cases h
    | ready =>
      obtain rfl := Option.some.inj h
      exact ⟨r, rfl, nofun, rfl, rfl⟩
    | incomplete =>
      obtain rfl := Option.some.inj h
      exact ⟨r, rfl, nofun, rfl, rfl⟩
  | error e r =>
    obtain ⟨t, ht⟩ := compile_of_error hchunk
    rw [ht] at h
    cases h

end Session

theorem foldlM_cons_eq_some (h : (text :: texts).foldlM Session.compileNext answered = some last) :
    ∃ next, Session.compileNext answered text = some next ∧
      texts.foldlM Session.compileNext next = some last := by
  rw [List.foldlM_cons] at h
  exact Option.bind_eq_some_iff.1 h

/-- **Chunks that are compiled have no error in them.** -/
theorem readable_join (hs : answered.2.strictness = .lenient)
    (hlines : ∀ text ∈ texts, EndsLine text)
    (h : texts.foldlM Session.compileNext answered = some last) :
    Readable (sights (String.join texts)) := by
  induction texts generalizing answered with
  | nil => exact readable_eof
  | cons text texts ih =>
    obtain ⟨next, hnext, hrest⟩ := foldlM_cons_eq_some h
    obtain ⟨r, hr, hquit, hsession, -⟩ := Session.of_compileNext hnext
    obtain ⟨p, hp, -, hitems⟩ := opens_of_chunk hs hr
    obtain ⟨hread, -, hlenient⟩ := atEnd_of_items hs hp hitems hquit
    have hrest' := ih (by rw [hsession]; exact hlenient)
      (fun text ht => hlines text (List.mem_cons_of_mem _ ht)) hrest
    rw [String.join_cons, sights_append (hlines text List.mem_cons_self)]
    refine ⟨?_, fun w hw => ?_⟩
    · rw [List.getLast?_append, hrest'.last]
      rfl
    · exact (List.mem_append.1 hw).elim (fun hw => hread.clear w (List.mem_of_mem_dropLast hw))
        (hrest'.clear w)

theorem Compile.Steps.rests {good : Pass → Prop} (h : Steps good p r) (hdate : p.toSession.UpToDate)
    (hquit : p.quitting = false) : r.toSession.UpToDate ∧ r.quitting = false := by
  induction h with
  | refl p => exact ⟨hdate, hquit⟩
  | item _ _ _ hquit' _ ih => exact ih (upToDate_commit _) hquit'

/-- **Chunks one after the other**, and behind the pass that has met the first of them. -/
theorem exists_ahead (hlines : ∀ text ∈ texts, EndsLine text)
    (hmeets : Meets (sights (String.join texts)) r P) (hat : r.AtEnd) (hdate : r.toSession.UpToDate)
    (hquit : r.quitting = false) (hapart : r.toSession.Apart texts)
    (h : texts.foldlM Session.compileNext (r.status, r.toSession) = some last) :
    ∃ q Q : Pass, Steps (fun _ => True) P Q ∧ q.Ahead [.eof] Q ∧ q.AtEnd ∧
      last = (q.status, q.toSession) := by
  induction texts generalizing r P with
  | nil =>
    refine ⟨r, P, .refl P, ?_, hat, (Option.some.inj h).symm⟩
    rcases hmeets with hahead | hbeyond | ⟨R, hawaits, -⟩
    · exact hahead
    · exact absurd rfl hbeyond.place.more
    · exact absurd rfl hawaits.beyond.place.more
  | cons text texts ih =>
    obtain ⟨next, hnext, hrest⟩ := foldlM_cons_eq_some h
    obtain ⟨q, hq, hquit', hsession, hcompile⟩ := Session.of_compileNext hnext
    have hs : r.strictness = .lenient := lenient_of_meets hmeets
    obtain ⟨p, hp, hopens, hitems⟩ := opens_of_chunk hs hq
    obtain ⟨-, hqat, hlenient⟩ := atEnd_of_items hs hp hitems hquit'
    obtain ⟨hseparate, hfitting, hapart'⟩ := hapart
    obtain ⟨hsteps, heof, hstatus⟩ := steps_of_items hp hitems hquit' hfitting
    have hlines' (text : String) (ht : text ∈ texts) : EndsLine text :=
      hlines text (List.mem_cons_of_mem _ ht)
    have hws : Readable (sights (String.join texts)) :=
      readable_join (by rw [hsession]; exact hlenient) hlines' hrest
    obtain ⟨us, hus, -⟩ := exists_sights_eq text
    have hline := hlines text List.mem_cons_self
    rw [String.join_cons, sights_append hline, hus, List.dropLast_concat] at hmeets
    have hfollow : Follow us r p :=
      { session := hopens.session
        quitting := hopens.quitting.trans hquit.symm
        previous := hopens.previous
        sights := hopens.sights.trans hus
        line := getLast?_of_endsLine hline hus }
    have hdate' : p.toSession.UpToDate := by
      rw [hopens.session]
      exact hdate
    obtain ⟨Q, hQ, hmeets'⟩ := exists_meets hws hmeets hat hfollow hdate' hsteps heof
      (by rw [hfollow.blocks, hopens.sights]; exact hseparate)
    obtain ⟨hqdate, hqquit⟩ := hsteps.rests hdate' hopens.quitting
    have hnext' : next = (q.status, q.toSession) := Prod.ext hstatus hsession
    obtain ⟨q', Q', hQ', hahead⟩ := ih hlines' hmeets' hqat hqdate hqquit
      (by rw [← hsession, ← hcompile]; exact hapart') (hnext' ▸ hrest)
    exact ⟨q', Q', hQ.trans hQ', hahead⟩

theorem consistent_foldlM (hs : answered.2.Consistent False)
    (h : texts.foldlM Session.compileNext answered = some last) : last.2.Consistent False := by
  induction texts generalizing answered with
  | nil => exact Option.some.inj h ▸ hs
  | cons text texts ih =>
    obtain ⟨next, hnext, hrest⟩ := foldlM_cons_eq_some h
    obtain ⟨r, -, -, -, hcompile⟩ := Session.of_compileNext hnext
    exact ih (hcompile ▸ (Session.consistent_compile hs text False.elim).1) hrest

/-- A session before its first chunk, and the pass at the first token of a text. -/
theorem meets_of_opens (hs : s.strictness = .lenient) (hws : Readable (sights text))
    (hP : s.Opens text P) : Meets (sights text) s.atInputEnd P := by
  have hne : sights text ≠ [] := by
    intro hnil
    have hlast := hws.last
    rw [hnil] at hlast
    cases hlast
  have halike : Session.Alike s P.toSession := by
    rw [hP.session]
    exact ⟨rfl, rfl, rfl, rfl, rfl, rfl, rfl, id, rfl⟩
  have hbehind : s.atInputEnd.Along (Place.Behind (sights text)) P :=
    { halike with
      lenient := hs
      quitting := hP.quitting
      place := ⟨hne, [], [], rfl, hP.sights.symm, nofun, hP.previous, .inr rfl⟩ }
  have hend : s.atInputEnd.sights = [] ++ [.eof] := rfl
  rcases hbehind.lands_of_level hend hP.sights hP.previous (.inr rfl) with hahead | hbeyond
  · exact .inl hahead
  · exact .inr (.inl hbeyond)

/-! ## Chunks and their text -/

namespace Session

/-- A new session compiles the text of chunks that stand apart as it compiles the chunks. -/
theorem exists_compile_join {options : Options} {last : Status × Session}
    (hlenient : options.strictness = .lenient) (hlines : ∀ text ∈ texts, EndsLine text)
    (hapart : (new options).Apart texts) (h : (new options).compileEach texts = some last) :
    ∃ s, (new options).compile (String.join texts) = (.ok last.1, s) ∧ last.2.Alike s ∧
      last.2.strictness = .lenient := by
  have hs : (new options).strictness = .lenient := hlenient
  have hws := readable_join hs hlines h
  obtain ⟨P, hP, hopens⟩ := exists_opens hs hws
  obtain ⟨q, Q, hsteps, hahead, hat, rfl⟩ := exists_ahead hlines (meets_of_opens hs hws hopens) rfl
    (fun _ => rfl) rfl hapart h
  have heof : Q.token.kind = .eof := hahead.kind.trans hat.kind
  have hchunk := chunk_of_advance hP
  rcases iterate_of_steps hsteps heof (List.replicate (itemBound P) ()) with hok | ⟨R, hfault⟩
  · have hstatus : Q.status = q.status := by
      rw [Session.status, Session.status, isReady_of_alike hahead.toAlike]
    rw [← hstatus]
    exact ⟨Q.toSession, compile_of_ok (hchunk.trans hok), hahead.toAlike, hahead.lenient⟩
  · -- the compiler itself does not fail
    obtain ⟨t, ht⟩ := compile_of_error (hchunk.trans hfault)
    obtain ⟨⟨d, hd⟩, -⟩ := isRefusal_of_compile (consistent_new options) False.elim
      (congrArg Prod.fst ht)
    cases hd

/-- **Chunking does not change the program.** Chunks that end lines and stand apart are compiled as
their text is compiled at once: the last status is the same, and so is the program, lines apart. The
input then ends in the same way, with the same program. -/
theorem compile_join_of_apart (limits : Limits) (texts : List String) (last : Status × Session)
    (hlines : ∀ text ∈ texts, EndsLine text) (hapart : (new ⟨.lenient, limits⟩).Apart texts)
    (h : (new ⟨.lenient, limits⟩).compileEach texts = some last) :
    ∃ s, (new ⟨.lenient, limits⟩).compile (String.join texts) = (.ok last.1, s) ∧
      s.program.unlined = last.2.program.unlined ∧
      s.finish.1 = last.2.finish.1 ∧
      s.finish.2.program.unlined = last.2.finish.2.program.unlined := by
  obtain ⟨s, hs, halike, hlenient⟩ := exists_compile_join rfl hlines hapart h
  have hconsistent : last.2.Consistent False := consistent_foldlM (consistent_new _) h
  exact ⟨s, hs, halike.program, halike.finish hlenient hconsistent⟩

/-- A definition in pieces: its `if` waits for the `else` over two chunks, and the bodies of the loop
and of the `else` are in other chunks than their headers. -/
def pieces : List String :=
  ["define f(x) \x7b\nif (x > 1)\n", "while (x)\n", "\nx -= 1\n", "\n", "else\n", "\x7b ; x = 2\n",
    "\x7d\n;return (x)\n", "\x7d\nf(3); if (a) b\n"]

theorem pieces_joined :
    ∃ last s, (∀ text ∈ pieces, EndsLine text) ∧ (new ⟨.lenient, {}⟩).Apart pieces ∧
      (new ⟨.lenient, {}⟩).compileEach pieces = some last ∧ last.1 = .incomplete ∧
      (new ⟨.lenient, {}⟩).compile (String.join pieces) = (.ok last.1, s) ∧
      s.program.unlined = last.2.program.unlined ∧
      s.finish.1 = last.2.finish.1 ∧
      s.finish.2.program.unlined = last.2.finish.2.program.unlined := by
  have hlines : ∀ text ∈ pieces, EndsLine text := by decide +kernel
  have hapart : (new ⟨.lenient, {}⟩).Apart pieces := by decide +kernel
  have hlast : ((new ⟨.lenient, {}⟩).compileEach pieces).map (·.1) = some .incomplete := by
    decide +kernel
  obtain ⟨last, h, hstatus⟩ := Option.map_eq_some_iff.1 hlast
  obtain ⟨s, hs⟩ := compile_join_of_apart {} pieces last hlines hapart h
  exact ⟨last, s, hlines, hapart, h, hstatus, hs⟩

/-- A new session compiles chunks that end lines, and makes another program of their text. -/
def Differ (texts : List String) : Prop :=
  (∀ text ∈ texts, EndsLine text) ∧
    ((new ⟨.lenient, {}⟩).compileEach texts).map (·.1) = some .ready ∧
    ((new ⟨.lenient, {}⟩).compileEach texts).map (·.2.program.unlined) ≠
      some ((new ⟨.lenient, {}⟩).compile (String.join texts)).2.program.unlined

instance (texts : List String) : Decidable (Differ texts) :=
  inferInstanceAs (Decidable (_ ∧ _ ∧ _))

/-- **Chunks that do not stand apart may make another program than their text**: a semicolon is the
body that the chunk before it awaits, or the body of the `else` before it, or a brace that closes the
body of an `if` hides the `else` of the next chunk from it. -/
theorem compile_join_ne :
    Differ ["while (b)\n", ";\nx\n"] ∧ Differ ["if (1) x\n", "else ;\ny\n"] ∧
      Differ ["if (1) \x7b if (2) \x7d\n", "else x\n"] := by
  decide +kernel

end Session

end DeskCalc
