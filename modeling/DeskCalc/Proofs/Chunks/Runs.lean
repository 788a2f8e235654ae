import DeskCalc.Proofs.Chunks.Items
import DeskCalc.Proofs.Rollback

/-!
# The items of two passes

A pass over a chunk goes from item to item (`Steps`). While it does, a pass over the longer text goes
from item to item too (`meets_of_steps`). Where a new chunk begins the pass over the longer text is
ahead by blank tokens, and the other one catches up with it.
-/

namespace DeskCalc

/-- The kinds of the tokens that are no line feeds. -/
def solid (ws : List Sight) : List Token.Kind := (ws.map (·.1.1)).filter (· != .newline)

theorem solid_cons_newline {u : Sight} {us : List Sight} (hu : u.1.1 = .newline) :
    solid (u :: us) = solid us := by
  simp [solid, hu]

theorem solid_append {us vs : List Sight} (h : ∀ u ∈ us, u.1.1 = .newline) :
    solid (us ++ vs) = solid vs := by
  induction us with
  | nil => rfl
  | cons u us ih =>
    rw [List.cons_append, solid_cons_newline (h u List.mem_cons_self),
      ih fun v hv => h v (List.mem_cons_of_mem u hv)]

/-- Where nothing is open the checkpoint is at the end of the main code. -/
def Session.UpToDate (s : Session) : Prop :=
  s.isReady = true → s.checkpoint = ⟨s.program.main.code.size, s.program.main.labels.size⟩

namespace Pass

variable {ws : List Sight} {p P q : Pass}

/-- The second place is behind some blank tokens that the first one has before it, in its own text and
then in `ws`. -/
structure Place.Behind (ws : List Sight) (x X : Place) : Prop where
  more : ws ≠ []
  sights : ∃ us vs, x.sights = us ++ [.eof] ∧ us ++ ws = vs ++ X.sights ∧
    (∀ v ∈ vs, v.1.1.isBlank = true) ∧ X.previous = (vs.getLast?.map (·.1.1)).getD x.previous ∧
    (ws = [.eof] ∨ (us.getLast?.map (·.1.1)).getD x.previous = .newline)

/-- Without blank tokens before it the first pass is level with the second one, or at its end. -/
theorem Along.lands_of_level (h : p.Along (Place.Behind ws) P) {us : List Sight}
    (hus : p.sights = us ++ [.eof]) (hws : P.sights = us ++ ws) (hprevious : P.previous = p.previous)
    (hline : ws = [.eof] ∨ (us.getLast?.map (·.1.1)).getD p.previous = .newline) : p.Lands ws P := by
  have hlevel (hline : ws = [.eof] ∨ us.getLast?.map (·.1.1) = some .newline) : p.Ahead ws P :=
    { h with
      place :=
        { more := h.place.more
          previous := hprevious
          sights := ⟨us, hus, hws, hline⟩ } }
  by_cases hmore : ws = [.eof]
  · exact .inl (hlevel (.inl hmore))
  have hline := hline.resolve_left hmore
  cases hlast : us.getLast? with
  | none =>
    obtain rfl := List.getLast?_eq_none_iff.1 hlast
    exact .inr
      { h with
        place :=
          { more := hmore
            atEnd := hus
            sights := ⟨[], hws.symm, nofun, hprevious.trans hline⟩ } }
  | some u =>
    rw [hlast] at hline
    exact .inl (hlevel (.inr (by rw [hlast]; exact congrArg some hline)))

/-- At the end of its chunk the first pass stays there. -/
theorem Along.beyond_of_atEnd {vs : List Sight} (h : p.Along (Place.Behind ws) P) (hat : p.AtEnd)
    (hvs : ws = vs ++ P.sights) (hne : vs ≠ []) (hblank : ∀ v ∈ vs, v.1.1.isBlank = true)
    (hprevious : P.previous = (vs.getLast?.map (·.1.1)).getD p.previous) : p.Beyond ws P := by
  obtain ⟨last, hlast⟩ := Option.ne_none_iff_exists'.1 (mt List.getLast?_eq_none_iff.1 hne)
  have hmore : ws ≠ [.eof] := by
    rintro rfl
    obtain ⟨v, vs, rfl⟩ := List.exists_cons_of_ne_nil hne
    cases (List.cons.inj hvs).1
    exact absurd (hblank _ List.mem_cons_self) (by decide)
  refine
    { h with
      place :=
        { more := hmore
          atEnd := hat
          sights := ⟨vs, hvs, hblank, hprevious.trans ?_⟩ } }
  rw [hlast]
  rfl

theorem previous_append (us vs : List Sight) (k : Token.Kind) :
    ((us ++ vs).getLast?.map (·.1.1)).getD k =
      (vs.getLast?.map (·.1.1)).getD ((us.getLast?.map (·.1.1)).getD k) := by
  rw [List.getLast?_append]
  cases vs.getLast? <;> rfl

/-- Where the first pass has read some of the blank tokens before it, it has the others before it. -/
theorem Along.behind_of_skips {ks us vs : List Sight} (h : p.Along (Place.Behind ws) P)
    (hp : p.Skips ks q) (hus : q.sights = us ++ [.eof]) (hvs : us ++ ws = vs ++ P.sights)
    (hblank : ∀ v ∈ vs, v.1.1.isBlank = true)
    (hprevious : P.previous = ((ks ++ vs).getLast?.map (·.1.1)).getD p.previous)
    (hline : ws = [.eof] ∨ ((ks ++ us).getLast?.map (·.1.1)).getD p.previous = .newline) :
    q.Along (Place.Behind ws) P := by
  rw [previous_append, ← hp.previous] at hprevious hline
  exact h.skip hp (.refl P) ⟨h.place.more, us, vs, hus, hvs, hblank, hprevious, hline⟩

end Pass

namespace Compile

open Pass

variable {T : Place → Place → Prop} {ws vs : List Sight} {good : Pass → Prop} {p P q Q r : Pass}
  {us : List Sight}

/-! ## Steps -/

/-- Some items lead from a pass to another one. Each of them begins at a pass with `good`, and none is
a `quit`. -/
inductive Steps (good : Pass → Prop) : Pass → Pass → Prop
  | refl (p : Pass) : Steps good p p
  | item {p q r : Pass} (heof : p.token.kind ≠ .eof) (hgood : good p) (hq : item p = .ok () q)
      (hquit : q.quitting = false) (h : Steps good (committed q) r) : Steps good p r

theorem Steps.trans (h : Steps good p q) (h' : Steps good q r) : Steps good p r := by
  induction h with
  | refl => exact h'
  | item heof hgood hq hquit _ ih => exact .item heof hgood hq hquit (ih h')

/-- The item that comes next. -/
theorem Steps.next (h : Steps good p r) (hr : r.token.kind = .eof) (hp : p.token.kind ≠ .eof) :
    good p ∧ ∃ q, Compile.item p = .ok () q ∧ q.quitting = false ∧ Steps good (committed q) r := by
  cases h with
  | refl => exact absurd hr hp
  | item _ hgood hq hquit h => exact ⟨hgood, _, hq, hquit, h⟩

/-- Behind the last token there is no item. -/
theorem Steps.eq_of_eof (h : Steps good p r) (hp : p.token.kind = .eof) : r = p := by
  cases h with
  | refl => rfl
  | item heof => exact absurd hp heof

/-- The passes at which the items of the rest of a chunk begin, at most `n` of them. -/
def itemStarts : Nat → Pass → List Pass
  | 0, _ => []
  | n + 1, p =>
    if p.token.kind = .eof then []
    else
      match item p with
      | .error _ _ => [p]
      | .ok _ q => if q.quitting then [p] else p :: itemStarts n (committed q)

theorem nextItem_of_ok (h : p.token.kind ≠ .eof) (hq : item p = .ok () q)
    (hquit : q.quitting = false) : nextItem p = .ok (.inl ()) (committed q) := by
  rw [nextItem_of_ne h, bind_of_ok hq, itemEnd_of_not hquit]

/-- What one repetition of the loop over the items does. -/
theorem nextItem_cases {s : Unit ⊕ Status} (h : nextItem p = .ok s q) :
    (p.token.kind = .eof ∧ s = .inr p.status ∧ q = p) ∨ s = .inr .quit ∨
      ∃ r, p.token.kind ≠ .eof ∧ item p = .ok () r ∧ r.quitting = false ∧ s = .inl () ∧
        q = committed r := by
  by_cases hp : p.token.kind = .eof
  · cases (nextItem_of_eof hp).symm.trans h
    exact .inl ⟨hp, rfl, rfl⟩
  · rw [nextItem_of_ne hp] at h
    obtain ⟨_, r, hr, h⟩ := bind_eq_ok h
    cases hquit : r.quitting with
    | true =>
      cases (itemEnd_of_quitting hquit).symm.trans h
      exact .inr (.inl rfl)
    | false =>
      cases (itemEnd_of_not hquit).symm.trans h
      exact .inr (.inr ⟨r, hp, hr, hquit, rfl, rfl⟩)

/-- **A chunk that is compiled goes from item to item.** -/
theorem steps_of_iterate (bound : List Unit) {status : Status}
    (h : iterate (fun (_ : Unit) => nextItem) bound () p = .ok status r) (hquit : status ≠ .quit)
    (hgood : ∀ q ∈ itemStarts (bound.length + 1) p, good q) :
    Steps good p r ∧ r.token.kind = .eof ∧ status = r.status := by
  induction bound generalizing p with
  | nil =>
    rw [iterate] at h
    obtain ⟨s, q, hq, h⟩ := bind_eq_ok h
    obtain ⟨hp, rfl, rfl⟩ | rfl | ⟨r', hp, hr', hquit', rfl, rfl⟩ := nextItem_cases hq
    · cases h
      exact ⟨.refl _, hp, rfl⟩
    · cases h
      exact absurd rfl hquit
    · cases h
  | cons c bound ih =>
    rw [iterate] at h
    obtain ⟨s, q, hq, h⟩ := bind_eq_ok h
    obtain ⟨hp, rfl, rfl⟩ | rfl | ⟨r', hp, hr', hquit', rfl, rfl⟩ := nextItem_cases hq
    · cases h
      exact ⟨.refl _, hp, rfl⟩
    · cases h
      exact absurd rfl hquit
    · have htail : itemStarts ((c :: bound).length + 1) p =
          p :: itemStarts (bound.length + 1) (committed r') := by
        rw [itemStarts, if_neg hp, hr']
        simp [hquit']
      rw [htail] at hgood
      obtain ⟨hsteps, hend⟩ := ih h fun q hq => hgood q (List.mem_cons_of_mem p hq)
      exact ⟨.item hp (hgood p List.mem_cons_self) hr' hquit' hsteps, hend⟩

/-- **Items one after the other make up a chunk**, within whatever bound is large enough. -/
theorem iterate_of_steps (h : Steps good p r) (hr : r.token.kind = .eof) (bound : List Unit) :
    iterate (fun (_ : Unit) => nextItem) bound () p = .ok r.status r ∨
      ∃ q, iterate (fun (_ : Unit) => nextItem) bound () p = .error (.fault .unbounded) q := by
  induction h generalizing bound with
  | refl p => cases bound <;> exact .inl (bind_of_ok (nextItem_of_eof hr))
  | item heof _ hq hquit _ ih =>
    have hnext := nextItem_of_ok heof hq hquit
    cases bound with
    | nil => exact .inr ⟨_, bind_of_ok hnext⟩
    | cons c bound =>
      rw [iterate, bind_of_ok hnext]
      exact ih hr bound

/-! ## Checkpoints -/

theorem isReady_of_alike {s t : Session} (h : Session.Alike s t) : t.isReady = s.isReady := by
  rw [Session.isReady, Session.isReady, h.target, h.blocks]

/-- After an item both sessions have the same checkpoint. -/
theorem along_committed (h : p.Along T P) : (committed p).Along T (committed P) := by
  have hmain : P.program.main.unlined = p.program.main.unlined := congrArg (·.main) h.program
  have hlabels : P.program.main.labels = p.program.main.labels := (Function.mk.inj hmain).2.2.1
  unfold committed Session.commit
  rw [isReady_of_alike h.toAlike]
  split
  · exact { h with checkpoint := by rw [size_of_unlined hmain, hlabels] }
  · exact h

theorem committed_of_not_ready (h : p.isReady = false) : committed p = p := by
  rw [committed, Session.commit, if_neg (by simp [h])]

/-- Where an `else` may follow the session is not ready. -/
theorem not_ready_of_ifEnded (h : p.blocks.top.ifEnded = true) : p.isReady = false := by
  cases hready : p.isReady with
  | false => rfl
  | true =>
    simp only [Session.isReady, BlockStack.isIdle, Block.isEmpty, Bool.and_eq_true, beq_iff_eq] at hready
    rw [hready.2.2] at h
    cases h

/-- Committing again changes nothing. -/
theorem committed_of_upToDate (h : p.toSession.UpToDate) : committed p = p := by
  unfold committed Session.commit
  split
  · next hready => rw [← h hready]
  · rfl

theorem upToDate_commit (s : Session) : s.commit.UpToDate := by
  unfold Session.commit
  split
  · exact fun _ => rfl
  · next hready => exact fun h => absurd h hready

theorem upToDate_of_skips (h : p.Skips us q) (hp : p.toSession.UpToDate) : q.toSession.UpToDate := by
  rw [h.session]
  exact hp

/-! ## The items of a chunk -/

/-- Where `p` has come to the end of its chunk, `P` is at its end too, or behind blank tokens, or
before an item that will take the `else` of the next chunk. -/
def Meets (ws : List Sight) (p P : Pass) : Prop :=
  p.Ahead ws P ∨ p.Beyond ws P ∨ ∃ R, p.Awaits ws R ∧ P.token.kind ≠ .eof ∧
    (item P = elseBranch R ∨ item P = (elseBranch >>= fun _ => statementTail) R)

/-- A closing brace closes a body that has one, or ends an `if`, or has no `else` behind the chunk. -/
def Fitting (ws : List Sight) (p : Pass) : Prop :=
  p.token.kind = .symbol .rightBrace →
    p.blocks.top.brace = true ∨ p.blocks.top.ifEnded = true ∨ ¬ElseNext ws

/-- **The items of a chunk**, from one place of both passes on. -/
theorem meets_of_steps (hws : Readable ws) (h : p.Ahead ws P) (hsteps : Steps (Fitting ws) p r)
    (hr : r.token.kind = .eof) :
    p.Clears r ∧ ∃ P', Steps (fun _ => True) P P' ∧ Meets ws r P' := by
  induction hsteps generalizing P with
  | refl p => exact ⟨.refl p, P, .refl P, .inl h⟩
  | @item p q r heof hgood hq hquit hsteps ih =>
    have hEof : P.token.kind ≠ .eof := h.kind ▸ heof
    obtain ⟨hclears, ⟨Q, hQ, hlands⟩ | ⟨-, R, hawaits, hR⟩⟩ := arrives_item hws h hgood () q hq
    · have hQuit : Q.quitting = false := (hlands.elim (·.quitting) (·.quitting)).trans hquit
      rcases hlands with hlands | hlands
      · obtain ⟨hclears', P', hP', hmeets⟩ := ih (along_committed hlands) hr
        exact ⟨hclears.trans hclears', P', .item hEof trivial hQ hQuit hP', hmeets⟩
      · have hend : r = committed q := hsteps.eq_of_eof (AtEnd.kind hlands.place.atEnd)
        subst hend
        exact ⟨hclears, _, .item hEof trivial hQ hQuit (.refl _),
          .inr (.inl (along_committed hlands))⟩
    · have hend : r = committed q := hsteps.eq_of_eof (AtEnd.kind hawaits.beyond.place.atEnd)
      rw [committed_of_not_ready (not_ready_of_ifEnded hawaits.ended)] at hend
      subst hend
      exact ⟨hclears, P, .refl P, .inr (.inr ⟨R, hawaits, hEof, hR⟩)⟩

/-! ## Items that begin a chunk -/

theorem item_of_newline (hk : p.token.kind = .newline) : item p = advance p := by
  rw [item_eq_statement (by simp [hk]), statement_eq, statementFrom, if_pos (.inl hk),
    innerStatement_eq, hk]
  rfl

theorem item_of_semicolon (hk : p.token.kind = .symbol .semicolon)
    (hawaited : p.blocks.top.awaited = false) (hended : p.blocks.top.ifEnded = false) :
    item p = (forbidAuto >>= fun _ => skipWhile (· == .symbol .semicolon)) p := by
  have hbegins : BeginsBody p.token.kind := by rw [hk]; exact ⟨nofun, nofun, nofun, nofun⟩
  rw [item_eq_statement (by simp [hk]), statement_eq, statementFrom, if_neg (by simp [hk, hended]),
    if_neg (by simp [hawaited]), if_neg (by simp [hawaited]),
    innerStatement_of_beginsBody hbegins hended]
  change plainFrom p.token.kind _ = _
  rw [hk]
  rfl

/-- An `else` at the beginning of an item. -/
theorem item_of_else (hk : p.token.kind = .keyword .elseBranch) :
    item p = (forbidAuto >>= fun _ => elseBranch >>= fun _ => statementTail) p := by
  rw [item_eq_statement (by simp [hk]), statement_eq, statementFrom,
    if_pos (.inr (.inr (.inl hk))), innerStatement_eq, hk]
  change plainFrom p.token.kind { p with autoAllowed := false } = _
  rw [hk]
  change (elseBranch >>= fun _ => plainEnd p.blocks) { p with autoAllowed := false } = _
  refine bind_congr_of_ensures (depth_of_elseBranch.mono (fun _ q hq => ?_) fun _ _ _ => trivial)
  refine plainEnd_of_ne (.inl ?_)
  rw [hq]
  exact Nat.ne_of_lt (Nat.lt_succ_self _)

/-! ## The beginning of a chunk -/

/-- Over the blank tokens `us` the pass `p` comes to `p'`, which is where `P'` is. -/
structure CatchesUp (ws us : List Sight) (p P p' P' : Pass) : Prop where
  sights : p.sights = us ++ p'.sights
  blank : ∀ u ∈ us, u.1.1.isBlank = true ∧ u.2 = false
  lines : p.blocks.top.awaited = true ∨ p.blocks.top.ifEnded = true → ∀ u ∈ us, u.1.1 = .newline
  blocks : p'.blocks = p.blocks
  steps : Steps (fun _ => True) P P'
  stays : P.token.kind ≠ .symbol .semicolon → P' = P
  lands : p'.Lands ws P'

theorem CatchesUp.refl (h : p.Lands ws P) : CatchesUp ws [] p P p P :=
  ⟨rfl, nofun, fun _ => nofun, rfl, .refl P, fun _ => rfl, h⟩

/-- Blank tokens that are read before. -/
theorem CatchesUp.after {p' P' : Pass} (h : CatchesUp ws vs q P p' P')
    (hsights : p.sights = us ++ q.sights) (hblank : ∀ u ∈ us, u.1.1.isBlank = true ∧ u.2 = false)
    (hlines : p.blocks.top.awaited = true ∨ p.blocks.top.ifEnded = true →
      ∀ u ∈ us, u.1.1 = .newline) (hblocks : q.blocks = p.blocks) :
    CatchesUp ws (us ++ vs) p P p' P' where
  sights := by rw [hsights, h.sights, List.append_assoc]
  blank u hu := (List.mem_append.1 hu).elim (hblank u) (h.blank u)
  lines hp u hu := (List.mem_append.1 hu).elim (hlines hp u) (h.lines (hblocks ▸ hp) u)
  blocks := h.blocks.trans hblocks
  steps := h.steps
  stays := h.stays
  lands := h.lands

/-- A line feed that begins an item. -/
theorem Steps.newline {u : Sight} (hsteps : Steps good p r) (hr : r.token.kind = .eof)
    (hdate : p.toSession.UpToDate) (hs : p.sights = u :: us) (hus : us ≠ [])
    (hk : p.token.kind = .newline) : ∃ q, p.Skips [u] q ∧ Steps good q r ∧ q.toSession.UpToDate := by
  obtain ⟨-, q, hq, -, hrest⟩ := hsteps.next hr (by simp [hk])
  rw [item_of_newline hk] at hq
  have hup : p.upcoming ≠ [] := by
    intro hnil
    exact hus ((List.cons.inj hs).2.symm.trans (by rw [hnil]; rfl))
  have hskip := skips_of_advance hup hq
  rw [(List.cons.inj hs).1] at hskip
  have hdate' := upToDate_of_skips hskip hdate
  rw [committed_of_upToDate hdate'] at hrest
  exact ⟨q, hskip, hrest, hdate'⟩

/-- The pass in which `auto` may no longer follow. -/
def autoForbidden (p : Pass) : Pass := { p with autoAllowed := false }

theorem along_autoForbidden (h : p.Along T P) : (autoForbidden p).Along T P :=
  { h with autoAllowed := nofun }

/-- Semicolons that begin an item. -/
theorem Steps.semicolons (hsteps : Steps good p r) (hr : r.token.kind = .eof)
    (hdate : p.toSession.UpToDate) (hend : p.sights.getLast? = some .eof)
    (hk : p.token.kind = .symbol .semicolon) (hawaited : p.blocks.top.awaited = false)
    (hended : p.blocks.top.ifEnded = false) :
    ∃ ks q, (autoForbidden p).Skips ks q ∧ ks ≠ [] ∧ (∀ k ∈ ks, k.1.1 = .symbol .semicolon) ∧
      q.token.kind ≠ .symbol .semicolon ∧ q.quitting = false ∧ Steps good q r ∧
      q.toSession.UpToDate := by
  obtain ⟨-, q, hq, hquit, hrest⟩ := hsteps.next hr (by simp [hk])
  rw [item_of_semicolon hk hawaited hended] at hq
  change skipWhile (· == .symbol .semicolon) (autoForbidden p) = _ at hq
  obtain ⟨ks, hskip, hall, hstop⟩ := skips_of_skipWhile (p := autoForbidden p) rfl hend hq
  have hdate' : q.toSession.UpToDate := upToDate_of_skips hskip hdate
  rw [committed_of_upToDate hdate'] at hrest
  have hstop : q.token.kind ≠ .symbol .semicolon := by simpa using hstop
  refine ⟨ks, q, hskip, ?_, fun k hmem => by simpa using hall k hmem, hstop, hquit, hrest,
    hdate'⟩
  rintro rfl
  exact hstop ((kind_of_sights_eq hskip.sights).symm.trans hk)

/-- Where the semicolons that begin an item of the first pass go on before the second one, that one
has an item there too. -/
theorem exists_item_of_semicolons {cs : List Sight} (h : p.Along T P) (hws : ws ≠ [])
    (hskip : (autoForbidden p).Skips vs q) (hqs : q.sights = us ++ [.eof])
    (hPs : P.sights = cs ++ (us ++ ws)) (hne : cs ≠ [])
    (hall : ∀ c ∈ cs, c.1.1 = .symbol .semicolon ∧ c.2 = false)
    (hstop : q.token.kind ≠ .symbol .semicolon) (hprevious : q.previous = .symbol .semicolon)
    (hawaited : p.blocks.top.awaited = false) (hended : p.blocks.top.ifEnded = false)
    (hline : ws = [.eof] ∨ us.getLast?.map (·.1.1) = some .newline) :
    P.token.kind = .symbol .semicolon ∧ ∃ Q, item P = .ok () Q ∧ q.Ahead ws Q := by
  have hnext : ∃ tail, us ++ ws = (q.token.word, false) :: tail := by
    cases us with
    | nil =>
      obtain rfl : ws = [.eof] := hline.resolve_right (by simp)
      exact ⟨[], hqs.symm.trans (by rw [Pass.sights, (List.cons.inj hqs).2])⟩
    | cons u us => exact ⟨us ++ ws, congrArg (· :: _) (List.cons.inj hqs).1.symm⟩
  obtain ⟨tail, htail⟩ := hnext
  have hkind : P.token.kind = .symbol .semicolon := by
    obtain ⟨c, cs, rfl⟩ := List.exists_cons_of_ne_nil hne
    exact (kind_of_sights hPs).trans (hall c List.mem_cons_self).1
  obtain ⟨Q, hQ, hSkip⟩ := exists_skipWhile (p := autoForbidden P) 
    (hPs.trans (congrArg (cs ++ ·) htail))
    (f := (· == .symbol .semicolon)) (fun u hu => ⟨by simp [hall u hu], (hall u hu).2⟩)
    (by simpa [Token.word_fst] using hstop) rfl
  have hblocks : P.blocks = p.blocks := h.blocks
  have hQs : Q.sights = us ++ ws := List.append_cancel_left (hSkip.sights.symm.trans hPs)
  have hQprevious : Q.previous = .symbol .semicolon := by
    obtain ⟨c, hc⟩ := Option.ne_none_iff_exists'.1 (mt List.getLast?_eq_none_iff.1 hne)
    rw [hSkip.previous, hc]
    exact (hall c (List.mem_of_getLast? hc)).1
  refine ⟨hkind, Q, ?_, ?_⟩
  · rw [item_of_semicolon hkind (hblocks ▸ hawaited) (hblocks ▸ hended)]
    exact hQ
  · have hforbidden : (autoForbidden p).Along T (autoForbidden P) :=
      { h with autoAllowed := by simp [autoForbidden] }
    exact hforbidden.skip hskip hSkip
      ⟨hws, hQprevious.trans hprevious.symm, us, hqs, hQs, hline⟩

/-- What the text of a pass has left when some of it has been read. -/
theorem exists_rest (h : p.sights = us ++ q.sights) (hs : p.sights = vs ++ [.eof]) :
    ∃ ts, q.sights = ts ++ [.eof] ∧ vs = us ++ ts := by
  rcases List.append_eq_append_iff.1 (hs.symm.trans h) with ⟨ts, hus, hts⟩ | ⟨ts, hvs, hts⟩
  · cases ts with
    | nil => exact ⟨[], hts.symm, by simp [hus]⟩
    | cons t ts => simp [Pass.sights] at hts
  · exact ⟨ts, hts, hvs⟩

section

variable (hsteps : Steps good p r) (hr : r.token.kind = .eof) (h : p.Along (Place.Behind ws) P)
  (hdate : p.toSession.UpToDate)
include hsteps hr h hdate

/-- Semicolons before the second pass, or before both of them. -/
theorem exists_semicolons (hk : p.token.kind = .symbol .semicolon)
    (hawaited : p.blocks.top.awaited = false) (hended : p.blocks.top.ifEnded = false) :
    ∃ ks q, (autoForbidden p).Skips ks q ∧ ks ≠ [] ∧ (∀ k ∈ ks, k.1.1 = .symbol .semicolon) ∧
      Steps good q r ∧ q.toSession.UpToDate ∧
      (q.Along (Place.Behind ws) P ∨ P.token.kind = .symbol .semicolon ∧
        ∃ Q, Steps (fun _ => True) P Q ∧ q.Ahead ws Q) := by
  obtain ⟨us, vs, hus, hvs, hblank, hprevious, hline⟩ := h.place.sights
  have hs : p.sights = us ++ [.eof] := hus
  obtain ⟨ks, q, hskip, hne, hall, hstop, hquit, hsteps', hdate'⟩ :=
    hsteps.semicolons hr hdate (by simp [hs]) hk hawaited hended
  refine ⟨ks, q, hskip, hne, hall, hsteps', hdate', ?_⟩
  obtain ⟨ts, hqs, rfl⟩ := exists_rest hskip.sights hs
  have hbehind {as : List Sight} (has : vs = ks ++ as) (hPs : ts ++ ws = as ++ P.sights) :
      q.Along (Place.Behind ws) P := by
    subst has
    exact (along_autoForbidden h).behind_of_skips hskip hqs hPs
      (fun v hv => hblank v (List.mem_append_right ks hv)) hprevious hline
  rw [List.append_assoc] at hvs
  rcases List.append_eq_append_iff.1 hvs with ⟨as, has, hPs⟩ | ⟨cs, rfl, hPs⟩
  · exact .inl (hbehind has hPs)
  rcases cs with _ | ⟨c, cs⟩
  · have hPs : ts ++ ws = [] ++ P.sights := hPs.symm
    exact .inl (hbehind (by simp) hPs)
  · have hq : q.previous = .symbol .semicolon := by
      obtain ⟨k, hk⟩ := Option.ne_none_iff_exists'.1 (mt List.getLast?_eq_none_iff.1 hne)
      rw [hskip.previous, hk]
      exact hall k (List.mem_of_getLast? hk)
    have hline : ws = [.eof] ∨ ts.getLast?.map (·.1.1) = some .newline := by
      refine hline.imp_right fun hline => ?_
      rw [previous_append, show p.place.previous = (autoForbidden p).previous from rfl,
        ← hskip.previous, hq] at hline
      cases hlast : ts.getLast? with
      | none => simp [hlast] at hline
      | some t => simpa [hlast] using hline
    obtain ⟨hK, Q, hQ, hahead⟩ := exists_item_of_semicolons h h.place.more hskip hqs hPs
      (List.cons_ne_nil _ _) (fun c hc => ⟨hall c (List.mem_append_right vs hc),
        hskip.clear c (List.mem_append_right vs hc)⟩) hstop hq hawaited hended hline
    have hahead := along_committed hahead
    rw [committed_of_upToDate hdate'] at hahead
    exact .inr ⟨hK, committed Q, .item (by simp [hK]) trivial hQ (hahead.quitting.trans hquit)
      (.refl _), hahead⟩

/-- **At the beginning of a chunk the first pass catches up with the second one.** A semicolon there is
no statement of its own that a body or an `if` waits for. -/
theorem exists_catchesUp
    (hsemicolon : p.blocks.top.awaited = true ∨ p.blocks.top.ifEnded = true →
      (solid p.sights).head? ≠ some (.symbol .semicolon)) :
    ∃ us p' P', CatchesUp ws us p P p' P' ∧ Steps good p' r ∧ p'.toSession.UpToDate := by
  -- every item of the first pass reads a blank token
  induction hn : p.sights.length using Nat.strongRecOn generalizing p with
  | _ n ih =>
    obtain ⟨us, vs, hus, hvs, hblank, hprevious, hline⟩ := h.place.sights
    rcases vs with _ | ⟨v, vs⟩
    · exact ⟨[], p, P, .refl (h.lands_of_level hus hvs.symm hprevious hline), hsteps, hdate⟩
    rcases us with _ | ⟨u, us⟩
    · have hbeyond := h.beyond_of_atEnd hus hvs (List.cons_ne_nil _ _) hblank hprevious
      exact ⟨[], p, P, .refl (.inr hbeyond), hsteps, hdate⟩
    obtain ⟨rfl, hrest⟩ := List.cons.inj hvs
    have hs : p.sights = (u :: us) ++ [.eof] := hus
    have hkind : p.token.kind = u.1.1 := kind_of_sights hs
    have hkinds := hblank u List.mem_cons_self
    simp only [Token.Kind.isBlank, Bool.or_eq_true, beq_iff_eq] at hkinds
    rcases hkinds with hsemi | hnewline
    · have hidle : ¬(p.blocks.top.awaited = true ∨ p.blocks.top.ifEnded = true) := by
        intro hwaits
        refine hsemicolon hwaits ?_
        simp [hs, solid, hsemi]
      obtain ⟨hawaited, hended⟩ := not_or.1 hidle
      obtain ⟨ks, q, hskip, hne, hall, hsteps', hdate', hnext⟩ := exists_semicolons hsteps hr h hdate
        (hkind.trans hsemi) (by simpa using hawaited) (by simpa using hended)
      have hblocks : q.blocks = p.blocks := congrArg (·.blocks) hskip.session
      have hafter {ls : List Sight} {p' P' : Pass} (hls : CatchesUp ws ls q P p' P') :
          CatchesUp ws (ks ++ ls) p P p' P' :=
        hls.after hskip.sights (fun w hw => ⟨by simp [Token.Kind.isBlank, hall w hw],
          hskip.clear w hw⟩) (fun hwaits => absurd hwaits hidle) hblocks
      rcases hnext with hq | ⟨hK, Q, hQ, hahead⟩
      · obtain ⟨ls, p', P', hcatches, hresult⟩ := ih q.sights.length
          (by
            rw [← hn, show p.sights = ks ++ q.sights from hskip.sights, List.length_append]
            have := List.length_pos_of_ne_nil hne
            omega) hsteps' hq hdate' (fun hwaits => absurd (hblocks ▸ hwaits) hidle) rfl
        exact ⟨ks ++ ls, p', P', hafter hcatches, hresult⟩
      · refine ⟨ks ++ [], q, Q, hafter ?_, hsteps', hdate'⟩
        exact ⟨rfl, by simp, fun _ => by simp, rfl, hQ, fun hne => absurd hK hne, .inl hahead⟩
    · obtain ⟨q, hskip, hsteps', hdate'⟩ :=
        hsteps.newline hr hdate hs (by simp) (hkind.trans hnewline)
      have hqs : q.sights = us ++ [.eof] := (List.cons.inj (hskip.sights.symm.trans hs)).2
      have hblocks : q.blocks = p.blocks := congrArg (·.blocks) hskip.session
      have hq := h.behind_of_skips hskip hqs hrest (fun v hv => hblank v (List.mem_cons_of_mem u hv))
        hprevious hline
      have hsolid : solid q.sights = solid p.sights := by
        rw [hskip.sights]
        exact (solid_cons_newline hnewline).symm
      obtain ⟨ks, p', P', hcatches, hresult⟩ := ih q.sights.length
        (by rw [← hn, hskip.sights]; simp) hsteps' hq hdate' (by rw [hblocks, hsolid]; exact hsemicolon)
        rfl
      refine ⟨[u] ++ ks, p', P', ?_, hresult⟩
      refine hcatches.after hskip.sights (fun w hw => ?_) (fun _ w hw => ?_) hblocks
      · obtain rfl := List.mem_singleton.1 hw
        exact ⟨hblank w List.mem_cons_self, hskip.clear w hw⟩
      · exact (List.mem_singleton.1 hw) ▸ hnewline

end

end Compile

end DeskCalc
