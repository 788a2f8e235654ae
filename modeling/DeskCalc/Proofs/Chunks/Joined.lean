import DeskCalc.Proofs.Chunks.Runs

/-!
# From one chunk to the next

A pass over the text of several chunks is before or behind the place at which a chunk begins. The pass
over that chunk catches up with it over blank tokens, or finds the `else` that the other one is about
to take. At the end of the chunk the two have met again (`exists_meets`).
-/

namespace DeskCalc

open Compile Pass

variable {ws us : List Sight} {p P q Q r R : Pass}

namespace Pass

theorem Skips.along {T : Place → Place → Prop} (hskip : p.Skips [] q) (h : p.Along T P) :
    q.Along T P := by
  have hplace : q.place = p.place := by
    rw [place, place, hskip.sights, hskip.previous]
    rfl
  exact h.skip hskip (.refl P) (hplace ▸ h.place)

/-- What is read behind the first token. -/
theorem Skips.tail {u : Sight} (h : p.Skips (u :: us) q) (hr : p.Skips [u] r) : r.Skips us q where
  sights := List.append_cancel_left (hr.sights.symm.trans h.sights)
  clear v hv := h.clear v (List.mem_cons_of_mem u hv)
  session := by rw [h.session, hr.session]
  previous := by rw [h.previous, hr.previous]; exact previous_append [u] us p.previous
  quitting := h.quitting.trans hr.quitting.symm

theorem Skips.exists_advance {u : Sight} (h : p.Skips (u :: us) q) :
    ∃ r, advance p = .ok () r ∧ p.Skips [u] r := by
  cases us with
  | nil => exact Compile.exists_advance h.sights rfl
  | cons v us => exact Compile.exists_advance h.sights (h.clear v (by simp))

end Pass

namespace Compile

/-! ## Line feeds as items -/

/-- Over line feeds, which the first pass skips, the second one goes item by item. -/
theorem steps_of_newlines (hws : Readable ws) (h : p.Ahead ws P) (hskip : p.Skips us q)
    (hus : ∀ u ∈ us, u.1.1 = .newline) (hready : p.isReady = false) (hquit : p.quitting = false) :
    ∃ Q, Steps (fun _ => True) P Q ∧ q.Lands ws Q := by
  induction us generalizing p P with
  | nil => exact ⟨P, .refl P, .inl (hskip.along h)⟩
  | cons u us ih =>
    obtain ⟨r, hr, hskips⟩ := hskip.exists_advance
    obtain ⟨-, R, hR, hlands⟩ := attains_advance hws h () r hr
    have hrest := hskip.tail hskips
    have hkind : P.token.kind = .newline :=
      h.kind.trans ((kind_of_sights hskip.sights).trans (hus u List.mem_cons_self))
    have hready' : r.isReady = false := by
      rw [hskips.session]
      exact hready
    have hcommitted : committed R = R :=
      committed_of_not_ready ((isReady_of_alike hlands.alike).trans hready')
    have hRquit : R.quitting = false :=
      (hlands.elim (·.quitting) (·.quitting)).trans (hskips.quitting.trans hquit)
    have hstep {Q : Pass} (hQ : Steps (fun _ => True) R Q) : Steps (fun _ => True) P Q :=
      .item (by simp [hkind]) trivial (by rw [item_of_newline hkind]; exact hR) hRquit
        (by rw [hcommitted]; exact hQ)
    rcases hlands with hahead | hbeyond
    · obtain ⟨Q, hQ, hlands⟩ := ih hahead hrest (fun v hv => hus v (List.mem_cons_of_mem u hv))
        hready' (hskips.quitting.trans hquit)
      exact ⟨Q, hstep hQ, hlands⟩
    · -- behind the last line feed of the chunk nothing is left
      have hnil : us = [] := by
        have hend : [Sight.eof] = us ++ q.sights := hbeyond.place.atEnd.symm.trans hrest.sights
        cases us with
        | nil => rfl
        | cons v us => simp [Pass.sights] at hend
      subst hnil
      exact ⟨R, hstep (.refl R), .inr (hrest.along hbeyond)⟩

/-! ## An `else` at the beginning of a chunk -/

/-- Tokens that are skipped behind a statement are line feeds up to the first semicolon. -/
theorem newline_of_isBlank {ts : List Sight} (hus : ∀ u ∈ us, u.1.1.isBlank = true)
    (hsolid : (solid (us ++ ts)).head? ≠ some (.symbol .semicolon)) :
    ∀ u ∈ us, u.1.1 = .newline := by
  induction us with
  | nil => nofun
  | cons u us ih =>
    have hu := hus u List.mem_cons_self
    simp only [Token.Kind.isBlank, Bool.or_eq_true, beq_iff_eq] at hu
    rcases hu with hsemicolon | hnewline
    · simp [solid, hsemicolon] at hsolid
    · rw [List.cons_append, solid_cons_newline hnewline] at hsolid
      exact List.forall_mem_cons.2
        ⟨hnewline, ih (fun v hv => hus v (List.mem_cons_of_mem u hv)) hsolid⟩

theorem not_ready_of_depth {s : Session} (h : 1 < s.blocks.depth) : s.isReady = false := by
  rcases hb : s.blocks with ⟨top, _ | ⟨b, below⟩⟩
  · simp [hb, BlockStack.depth] at h
  · simp [Session.isReady, hb, BlockStack.isIdle, BlockStack.isTopLevel]

/-- Behind the word `else` a body is open, and the next token is the one behind the word. -/
theorem skips_of_elseBranch (hend : p.sights.getLast? = some .eof) (hk : p.token.kind ≠ .eof)
    (hq : elseBranch p = .ok () q) :
    p.sights = (p.token.word, false) :: q.sights ∧ 1 < q.blocks.depth := by
  obtain ⟨r, htoken, hupcoming, hdepth, -, hr⟩ := elseBranch_opens.ok hq
  have hskip := skips_of_advance (by rw [hupcoming]; exact upcoming_ne_nil hend hk) hr
  have hsights : r.sights = p.sights := by rw [Pass.sights, Pass.sights, htoken, hupcoming]
  have hblocks : q.blocks = r.blocks := congrArg (·.blocks) hskip.session
  constructor
  · rw [← hsights, hskip.sights, htoken]
    rfl
  · rw [hblocks, hdepth]
    exact Nat.lt_add_of_pos_left (Nat.succ_pos _)

theorem lands_committed (h : p.Lands ws P) : (committed p).Lands ws (committed P) :=
  h.imp along_committed along_committed

/-- **An `else` that begins a chunk.** The second pass takes it in the item that it is before. Where it
does not skip what is behind the word, no semicolon is there. -/
theorem exists_steps_of_else (hws : Readable ws) (h : p.Ahead ws R)
    (hk : p.token.kind = .keyword .elseBranch) (hq : item p = .ok () q) (hquit : q.quitting = false)
    (hsolid : ¬[.keyword .elseBranch, .symbol .semicolon] <+: solid p.sights)
    (hP : P.token.kind ≠ .eof)
    (hitem : item P = elseBranch R ∨ item P = (elseBranch >>= fun _ => statementTail) R) :
    ∃ Q, Steps (fun _ => True) P Q ∧ (committed q).Lands ws Q := by
  have hforbidden := along_autoForbidden h
  have hk' : (autoForbidden p).token.kind = .keyword .elseBranch := hk
  rw [item_of_else hk] at hq
  change (elseBranch >>= fun _ => statementTail) (autoForbidden p) = _ at hq
  obtain ⟨_, r, hr, hq⟩ := bind_eq_ok hq
  obtain ⟨S, hS, hahead⟩ := (follows_of_lasts (atWord_of_keyword hk') hforbidden).ahead hr
  rcases hitem with hitem | hitem
  · -- the second pass is still right behind the word
    obtain ⟨_, t, ht, -⟩ := bind_eq_ok hq
    obtain ⟨us, hskip, hblank, -⟩ := skips_of_skipWhile rfl hahead.getLast? ht
    have hlenient : t.strictness = .lenient := by
      rw [hskip.session]
      exact hahead.lenient
    cases (statementTail_eq ht hlenient).symm.trans hq
    obtain ⟨hsights, hdepth⟩ := skips_of_elseBranch hforbidden.getLast? (by simp [hk']) hr
    have hsolid' : (solid (us ++ q.sights)).head? ≠ some (.symbol .semicolon) := by
      intro hhead
      obtain ⟨ks, hks⟩ := List.head?_eq_some_iff.1 hhead
      refine hsolid ⟨ks, ?_⟩
      change _ = solid (autoForbidden p).sights
      rw [hsights, hskip.sights]
      simp only [solid, List.map_cons, Token.word_fst, hk'] at hks ⊢
      rw [List.filter_cons_of_pos (by decide), hks]
      rfl
    have hready : r.isReady = false := not_ready_of_depth hdepth
    have hready' : q.isReady = false := by
      rw [hskip.session]
      exact hready
    have hcommitted : committed S = S :=
      committed_of_not_ready ((isReady_of_alike hahead.toAlike).trans hready)
    have hrquit : r.quitting = false := hskip.quitting.symm.trans hquit
    obtain ⟨Q, hQ, hlands⟩ := steps_of_newlines hws hahead hskip
      (newline_of_isBlank hblank hsolid') hready hrquit
    rw [committed_of_not_ready hready']
    refine ⟨Q, .item hP trivial (hitem.trans hS) (hahead.quitting.trans hrquit) ?_, hlands⟩
    rw [hcommitted]
    exact hQ
  · obtain ⟨-, Q, hQ, hlands⟩ := attains_statementTail hws (.inl hahead) () q hq
    refine ⟨committed Q, .item hP trivial ?_ ?_ (.refl _), lands_committed hlands⟩
    · rw [hitem, bind_of_ok hS]
      exact hQ
    · exact (hlands.elim (·.quitting) (·.quitting)).trans hquit

/-! ## From one chunk to the next -/

/-- Where `p` begins a chunk behind that of `r`, and `us` stands for the chunk of `p`. -/
structure Follow (us : List Sight) (r p : Pass) : Prop where
  session : p.toSession = { r.toSession with warnings := p.warnings }
  quitting : p.quitting = r.quitting
  previous : p.previous = .newline
  sights : p.sights = us ++ [.eof]
  line : us.getLast?.map (·.1.1) = some .newline

theorem Follow.blocks (h : Follow us r p) : p.blocks = r.blocks := by rw [h.session]

/-- The second pass is behind the blank tokens with which the next chunk begins. -/
theorem Follow.behind (h : Follow us r p) (hws : ws ≠ []) (hr : r.Beyond (us ++ ws) P) :
    p.Along (Place.Behind ws) P := by
  obtain ⟨vs, hvs, hblank, hprevious⟩ := hr.place.sights
  have halike : Session.Alike p.toSession P.toSession := by
    rw [h.session]
    exact { hr with }
  have hlenient : p.strictness = .lenient := by
    rw [h.session]
    exact hr.lenient
  refine
    { halike with
      lenient := hlenient
      quitting := hr.quitting.trans h.quitting.symm
      place := ⟨hws, us, vs, h.sights, hvs, hblank, ?_, .inr ?_⟩ }
  · exact hprevious.trans (congrArg _ h.previous.symm)
  · rw [h.line]
    rfl

/-- The next chunk is compiled, from where the second pass is. -/
theorem meets_of_lands (hws : Readable ws) (h : p.Lands ws P) (hsteps : Steps (Fitting ws) p r)
    (hr : r.token.kind = .eof) : ∃ Q, Steps (fun _ => True) P Q ∧ Meets ws r Q := by
  rcases h with hahead | hbeyond
  · exact (meets_of_steps hws hahead hsteps hr).2
  · obtain rfl := hsteps.eq_of_eof (AtEnd.kind hbeyond.place.atEnd)
    exact ⟨P, .refl P, .inr (.inl hbeyond)⟩

/-- **From one chunk to the next.** -/
theorem exists_meets (hws : Readable ws) (h : Meets (us ++ ws) r P) (hat : r.AtEnd)
    (hp : Follow us r p) (hdate : p.toSession.UpToDate) (hsteps : Steps (Fitting ws) p q)
    (hq : q.token.kind = .eof)
    (hsolid : p.blocks.top.awaited = true ∨ p.blocks.top.ifEnded = true →
      ¬[.symbol .semicolon] <+: solid p.sights ∧
        ¬[.keyword .elseBranch, .symbol .semicolon] <+: solid p.sights) :
    ∃ Q, Steps (fun _ => True) P Q ∧ Meets ws q Q := by
  have hne : ws ≠ [] := by
    rintro rfl
    cases hws.last
  have hmore : us ++ ws ≠ [.eof] := by
    intro heof
    have hline := hp.line
    rcases us with _ | ⟨u, us⟩
    · cases hline
    · exact hne (List.append_eq_nil_iff.1 (List.cons.inj heof).2).2
  have hsemicolon : p.blocks.top.awaited = true ∨ p.blocks.top.ifEnded = true →
      (solid p.sights).head? ≠ some (.symbol .semicolon) := by
    intro hwaits hhead
    obtain ⟨ks, hks⟩ := List.head?_eq_some_iff.1 hhead
    exact (hsolid hwaits).1 ⟨ks, hks.symm⟩
  rcases h with hahead | hbeyond | ⟨R, hawaits, hP, hitem⟩
  · exact absurd hat (hahead.not_atEnd hmore)
  · obtain ⟨us, p', P', hcatches, hsteps', hdate'⟩ :=
      exists_catchesUp hsteps hq (hp.behind hne hbeyond) hdate hsemicolon
    obtain ⟨Q, hQ, hmeets⟩ := meets_of_lands hws hcatches.lands hsteps' hq
    exact ⟨Q, hcatches.steps.trans hQ, hmeets⟩
  · obtain ⟨us, p', R', hcatches, hsteps', hdate'⟩ :=
      exists_catchesUp hsteps hq (hp.behind hne hawaits.beyond) hdate hsemicolon
    obtain rfl := hcatches.stays (by simp [hawaits.found])
    have hended : p'.blocks.top.ifEnded = true := by
      rw [hcatches.blocks, hp.blocks]
      exact hawaits.ended
    rcases hcatches.lands with hahead | hbeyond
    · have hk : p'.token.kind = .keyword .elseBranch := hahead.kind.symm.trans hawaits.found
      obtain ⟨-, t, ht, hquit, hrest⟩ := hsteps'.next hq (by simp [hk])
      have hended' : p.blocks.top.ifEnded = true := hcatches.blocks ▸ hended
      have hsame : solid p'.sights = solid p.sights := by
        rw [hcatches.sights, solid_append (hcatches.lines (.inr hended'))]
      obtain ⟨Q, hQ, hlands⟩ := exists_steps_of_else hws hahead hk ht hquit
        (hsame ▸ (hsolid (.inr hended')).2) hP hitem
      obtain ⟨Q', hQ', hmeets⟩ := meets_of_lands hws hlands hrest hq
      exact ⟨Q', hQ.trans hQ', hmeets⟩
    · obtain rfl := hsteps'.eq_of_eof (AtEnd.kind hbeyond.place.atEnd)
      exact ⟨P, .refl P, .inr (.inr ⟨R', ⟨hbeyond, hawaits.found, hended⟩, hP, hitem⟩)⟩

end Compile

end DeskCalc
