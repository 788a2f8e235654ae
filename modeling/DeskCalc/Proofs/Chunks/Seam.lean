import DeskCalc.Proofs.Chunks.Statement

/-!
# Where a chunk ends

Behind a statement the compiler skips line feeds and semicolons, and behind the body of an `if` it
skips line feeds and looks for `else`. There it may come to the end of the chunk, and the pass over
the longer text goes on into what is behind it: it is then `Beyond` the other one by some blank
tokens, or it has found the `else` that the other one will find in the next chunk (`Awaits`).
-/

namespace DeskCalc

/-- The tokens that are skipped behind a statement. -/
def Token.Kind.isBlank (k : Token.Kind) : Bool := k == .symbol .semicolon || k == .newline

/-- Tokens without an error, up to the end of a text. -/
structure Readable (ws : List Sight) : Prop where
  last : ws.getLast? = some .eof
  clear : ∀ w ∈ ws, w.2 = false

/-- The first token that is not blank is the word `else`. -/
def ElseNext (ws : List Sight) : Prop :=
  ∃ vs w us, ws = vs ++ w :: us ∧ (∀ v ∈ vs, v.1.1.isBlank = true) ∧ w.1.1 = .keyword .elseBranch

theorem elseNext_iff {ws : List Sight} : ElseNext ws ↔
    (ws.dropWhile (·.1.1.isBlank)).head?.map (·.1.1) = some (.keyword .elseBranch) := by
  constructor
  · rintro ⟨vs, w, us, rfl, hvs, hw⟩
    induction vs with
    | nil =>
      rw [List.nil_append, List.dropWhile_cons, if_neg (by simp [hw, Token.Kind.isBlank])]
      exact congrArg some hw
    | cons v vs ih =>
      rw [List.cons_append, List.dropWhile_cons, if_pos (hvs v List.mem_cons_self)]
      exact ih fun u hu => hvs u (List.mem_cons_of_mem v hu)
  · intro h
    induction ws with
    | nil => cases h
    | cons w ws ih =>
      by_cases hblank : w.1.1.isBlank = true
      · rw [List.dropWhile_cons, if_pos hblank] at h
        obtain ⟨vs, u, us, rfl, hvs, hu⟩ := ih h
        exact ⟨w :: vs, u, us, rfl, List.forall_mem_cons.2 ⟨hblank, hvs⟩, hu⟩
      · rw [List.dropWhile_cons, if_neg hblank] at h
        exact ⟨[], w, ws, rfl, nofun, Option.some.inj h⟩

instance (ws : List Sight) : Decidable (ElseNext ws) := decidable_of_iff _ elseNext_iff.symm

/-- The tokens before the end of a text that satisfy a condition, and the first one that does
not. -/
theorem exists_split {f : Token.Kind → Bool} (hf : f .eof = false) {ws : List Sight}
    (h : ws.getLast? = some .eof) :
    ∃ vs w us, ws = vs ++ w :: us ∧ (∀ v ∈ vs, f v.1.1 = true) ∧ f w.1.1 = false := by
  induction ws with
  | nil => cases h
  | cons w us ih =>
    cases hw : f w.1.1 with
    | false => exact ⟨[], w, us, rfl, nofun, hw⟩
    | true =>
      cases us with
      | nil =>
        cases h
        exact absurd hw (by simp [hf])
      | cons u us =>
        obtain ⟨vs, v, ts, heq, hall, hv⟩ := ih (by simpa using h)
        exact ⟨w :: vs, v, ts, by rw [heq]; rfl, List.forall_mem_cons.2 ⟨hw, hall⟩, hv⟩

namespace Pass

variable {ws : List Sight} {p P q Q : Pass}

/-- The first place is at the end of its text, and the second one is behind some blank tokens of
`ws`, which is what its text has there. -/
structure Place.Past (ws : List Sight) (x X : Place) : Prop where
  more : ws ≠ [.eof]
  atEnd : x.sights = [.eof]
  sights : ∃ vs, ws = vs ++ X.sights ∧ (∀ v ∈ vs, v.1.1.isBlank = true) ∧
    X.previous = (vs.getLast?.map (·.1.1)).getD .newline

/-- The pass `p` is at the end of its chunk, and `P` has gone on. -/
abbrev Beyond (ws : List Sight) (p P : Pass) : Prop := p.Along (Place.Past ws) P

/-- Both passes are at the same place, or the second one has gone on. -/
def Lands (ws : List Sight) (p P : Pass) : Prop := p.Ahead ws P ∨ p.Beyond ws P

/-- The pass `p` is at the end of its chunk, where an `else` may follow, and `R` has found it. -/
structure Awaits (ws : List Sight) (p R : Pass) : Prop where
  beyond : p.Beyond ws R
  found : R.token.kind = .keyword .elseBranch
  ended : p.blocks.top.ifEnded = true

/-- The same where bodies are closed: if the second pass has gone on, fewer than `d` blocks are
open. -/
def LandsBelow (ws : List Sight) (d : Nat) (p P : Pass) : Prop :=
  p.Ahead ws P ∨ p.Beyond ws P ∧ p.blocks.depth < d

theorem LandsBelow.lands {d : Nat} (h : p.LandsBelow ws d P) : p.Lands ws P := h.imp_right And.left

theorem Lands.below (h : p.Lands ws P) : p.LandsBelow ws (p.blocks.depth + 1) P :=
  h.imp_right fun h => ⟨h, Nat.lt_succ_self _⟩

theorem Lands.getLast? (h : p.Lands ws P) : p.sights.getLast? = some .eof := by
  rcases h with h | h
  · exact Along.getLast? h
  · rw [show p.sights = [.eof] from h.place.atEnd]
    rfl

theorem Lands.alike (h : p.Lands ws P) : Session.Alike p.toSession P.toSession :=
  h.elim (·.toAlike) (·.toAlike)

theorem elseNext_of_beyond (h : p.Beyond ws P) (hk : P.token.kind = .keyword .elseBranch) :
    ElseNext ws := by
  obtain ⟨vs, hvs, hblank, -⟩ := h.place.sights
  exact ⟨vs, _, _, hvs, hblank, by rw [Token.word_fst, hk]⟩

/-- Only the program, the open blocks and what they keep are not the same. -/
def Works (p q : Pass) : Prop :=
  ∃ program target blocks exits continues, q = { p with
    program := program, target := target, blocks := blocks, exits := exits, continues := continues }

end Pass

namespace Compile

open Pass

variable {α : Type} {ws : List Sight} {l : Prop} {p P : Pass} {q : Pass} {d : Nat}
  {outer brace : Bool} {c : Closing} {m : Compile α}

/-- What `m` does on `p`, `M` does on `P`, and the second pass may go on behind the chunk. -/
def Attains (ws : List Sight) (m : Compile α) (p : Pass) (M : Compile α) (P : Pass) : Prop :=
  ∀ a q, m p = .ok a q → p.Clears q ∧ ∃ Q, M P = .ok a Q ∧ q.Lands ws Q

/-! ## Skipping blank tokens -/

/-- Where the first pass skips to the end of its chunk the second one skips on. -/
theorem attains_skipWhile (hws : Readable ws) {f : Token.Kind → Bool}
    (hf : ∀ k, f k = true → k.isBlank = true) (h : p.Lands ws P) (hq : skipWhile f p = .ok () q) :
    p.Clears q ∧ ∃ Q, skipWhile f P = .ok () Q ∧
      (q.Ahead ws Q ∨ q.Beyond ws Q ∧ f Q.token.kind = false) := by
  have heof : f .eof = false := by
    cases h : f .eof with
    | false => rfl
    | true => exact absurd (hf _ h) (by decide)
  rcases h with h | h
  · obtain ⟨us, hskip, hall, hstop⟩ := skips_of_skipWhile heof h.getLast? hq
    refine ⟨hskip.clears, ?_⟩
    rcases h.next hskip with ⟨hmore, hat, hline⟩ | ⟨hstay, tail, hPs⟩
    · obtain ⟨vs, hqs, hPs, -⟩ := h.rest hskip
      have hvs : vs = [] := by simpa [AtEnd] using hqs.symm.trans hat
      obtain ⟨vs', w, ts, hsplit, hall', hw⟩ := exists_split heof hws.last
      rw [hvs, List.nil_append, hsplit, ← List.append_assoc] at hPs
      obtain ⟨Q, hQ, hSkip⟩ := exists_skipWhile hPs
        (fun u hu => (List.mem_append.1 hu).elim (fun hu => ⟨hall u hu, hskip.clear u hu⟩)
          fun hu => ⟨hall' u hu, hws.clear u (by simp [hsplit, hu])⟩) hw
        (hws.clear w (by simp [hsplit]))
      have hQs : Q.sights = w :: ts := List.append_cancel_left (hSkip.sights.symm.trans hPs)
      refine ⟨Q, hQ, .inr ⟨?_, kind_of_sights hQs ▸ hw⟩⟩
      refine h.skip hskip hSkip
        { more := hmore
          atEnd := hat
          sights := ⟨vs', hsplit.trans (congrArg (vs' ++ ·) hQs.symm),
            fun v hv => hf _ (hall' v hv), ?_⟩ }
      change Q.previous = _
      rw [hSkip.previous, List.getLast?_append]
      cases vs'.getLast? with
      | none => simp [hline]
      | some v => rfl
    · obtain ⟨Q, hQ, hSkip⟩ := exists_skipWhile hPs (fun u hu => ⟨hall u hu, hskip.clear u hu⟩)
        (by rw [Token.word_fst]; exact hstop) rfl
      exact ⟨Q, hQ, .inl (h.skips hskip hSkip hstay)⟩
  · -- the first pass is at the end already
    have hat : p.AtEnd := h.place.atEnd
    cases (skipWhile_of_false (hat.kind ▸ heof)).symm.trans hq
    refine ⟨.refl p, ?_⟩
    obtain ⟨vs, hvs, hblank, hprevious⟩ := h.place.sights
    have hlast : P.sights.getLast? = some .eof := by
      have := hws.last
      rw [hvs] at this
      simpa [Pass.sights, Pass.place] using this
    obtain ⟨vs', w, ts, hsplit, hall', hw⟩ := exists_split heof hlast
    have hclear (v : Sight) (hv : v ∈ P.sights) : v.2 = false :=
      hws.clear v (hvs ▸ List.mem_append_right vs hv)
    obtain ⟨Q, hQ, hSkip⟩ := exists_skipWhile hsplit
      (fun u hu => ⟨hall' u hu, hclear u (by simp [hsplit, hu])⟩) hw (hclear w (by simp [hsplit]))
    have hQs : Q.sights = w :: ts := List.append_cancel_left (hSkip.sights.symm.trans hsplit)
    refine ⟨Q, hQ, .inr ⟨?_, kind_of_sights hQs ▸ hw⟩⟩
    refine h.skip (.refl p) hSkip
      { more := h.place.more
        atEnd := hat
        sights := ⟨vs ++ vs', ?_, fun v hv => ?_, ?_⟩ }
    · rw [hvs, List.append_assoc]
      exact congrArg (vs ++ ·) hSkip.sights
    · exact (List.mem_append.1 hv).elim (hblank v) fun hv => hf _ (hall' v hv)
    · change Q.previous = _
      rw [hSkip.previous, List.getLast?_append]
      cases vs'.getLast? with
      | none => exact hprevious
      | some v => rfl

/-- POSIX plays no part behind a statement. -/
theorem statementTail_eq (h : skipWhile Token.Kind.isBlank p = .ok () q)
    (hq : q.strictness = .lenient) : statementTail p = .ok () q := by
  change (skipWhile Token.Kind.isBlank >>= _) p = _
  rw [bind_of_ok h]
  change (if q.previous = .symbol .semicolon ∧ q.token.kind = .keyword .define then
    here >>= report .defineAfterSemicolon else pure () : Compile Unit) q = _
  split
  · exact report_of_lenient hq
  · rfl

theorem attains_statementTail (hws : Readable ws) (h : p.Lands ws P) :
    Attains ws statementTail p statementTail P := by
  intro _ q hq
  obtain ⟨_, r, hr, -⟩ := bind_eq_ok hq
  obtain ⟨hclears, R, hR, hlands⟩ := attains_skipWhile hws (fun _ => id) h hr
  have hlands : r.Lands ws R := hlands.imp id And.left
  have hlenient : r.strictness = .lenient := hlands.elim (·.lenient) (·.lenient)
  cases (statementTail_eq hr hlenient).symm.trans hq
  exact ⟨hclears, R, statementTail_eq hR (hlands.alike.strictness.trans hlenient), hlands⟩

/-! ## The end of the body of an `if` -/

/-- The body of an `if` is closed, and an `else` may follow. -/
def ifClosed (p : Pass) : Pass :=
  { p with blocks := p.blocks.pop.modifyTop ({ · with ifEnded := true }) }

theorem lookForElse_of_eq (hk : p.token.kind = .keyword .elseBranch) :
    lookForElse outer p = (elseBranch >>= fun _ => pure true) p := by
  change (if p.token.kind == _ then _ else _ : Compile Bool) p = _
  rw [if_pos (by simpa using hk)]

theorem lookForElse_of_ne (hk : p.token.kind ≠ .keyword .elseBranch) : lookForElse outer p =
      (if outer then endIf >>= fun _ => pure false else pure false : Compile Bool) p := by
  change (if p.token.kind == _ then _ else _ : Compile Bool) p = _
  rw [if_neg (by simpa using hk)]

theorem closeIfHere_of_ne (h : p.strictness ≠ .strict) :
    closeIfHere outer p = lookForElse outer (ifClosed p) := by
  change (if p.strictness = .strict then _ else _ : Compile Bool) _ = _
  rw [if_neg h]
  rfl

theorem closeIf_eq (h : skipNewlines p = .ok () q) (hq : q.strictness ≠ .strict) :
    closeIf outer p = lookForElse outer (ifClosed q) := by
  change (skipNewlines >>= fun _ => closeIfHere outer) p = _
  rw [bind_of_ok h, closeIfHere_of_ne hq]

theorem along_ifClosed {T : Place → Place → Prop} (h : p.Along T P) :
    (ifClosed p).Along T (ifClosed P) :=
  { h with blocks := congrArg (fun s => s.pop.modifyTop ({ · with ifEnded := true })) h.blocks }

theorem follows_lookForElse (h : p.Ahead ws P) (outer : Bool) :
    Follows ws l (lookForElse outer) p (lookForElse outer) P := by
  refine follows_ifAt h (fun hk => ?_) fun _ => ?_
  · exact (follows_of_lasts (atWord_of_keyword hk) h).seq fun _ q Q _ hq => follows_pure hq _
  · split
    · exact (stays_endIf h).seq fun _ q Q _ hq => follows_pure hq _
    · exact follows_pure h _

/-- Resolving a label changes the program and the labels that are pending. -/
theorem resolveExit_changes : Ensures resolveExit p
    (fun _ q => ∃ program exits, q = { p with program := program, exits := exits })
    fun e _ => ¬e.IsRefusal := by
  simp only [resolveExit, ensures_bind, ensures_get]
  split
  · exact ⟨_, _, rfl⟩
  · simp only [function, ensures_bind, ensures_set, ensures_get]
    split
    · simp only [ensures_pure]
      split
      · exact ⟨_, _, rfl⟩
      · exact not_isRefusal_fault _
    · exact not_isRefusal_fault _

theorem depth_of_endIf (h : endIf p = .ok () q) : q.blocks.depth = p.blocks.depth := by
  obtain ⟨_, r, hr, hq⟩ := bind_eq_ok h
  cases hr
  obtain ⟨_, _, rfl⟩ := resolveExit_changes.ok hq
  rfl

/-- Without `else` no block is opened. -/
theorem depth_of_lookForElse (h : lookForElse outer p = .ok false q) :
    q.blocks.depth = p.blocks.depth := by
  by_cases hk : p.token.kind = .keyword .elseBranch
  · rw [lookForElse_of_eq hk] at h
    obtain ⟨_, r, -, hq⟩ := bind_eq_ok h
    cases hq
  · rw [lookForElse_of_ne hk] at h
    cases outer with
    | false =>
      cases h
      rfl
    | true =>
      obtain ⟨_, r, hr, hq⟩ := bind_eq_ok h
      cases hq
      exact depth_of_endIf hr

/-- The second pass closes the body of an `if` as the first one does, or it finds an `else` behind
the chunk. -/
theorem meets_closeIf (hws : Readable ws) (h : p.LandsBelow ws d P) (hd : p.blocks.depth ≤ d)
    (hone : 1 < d) (houter : outer = true → ¬ElseNext ws) {found : Bool}
    (hq : closeIf outer p = .ok found q) : p.Clears q ∧ (found = false → q.blocks.depth < d) ∧
      ((∃ Q, closeIf outer P = .ok found Q ∧ q.LandsBelow ws d Q) ∨
        found = false ∧ outer = false ∧ ∃ R, q.Awaits ws R ∧
          closeIf outer P = (elseBranch >>= fun _ => pure true) R) := by
  obtain ⟨_, r, hr, -⟩ := bind_eq_ok hq
  obtain ⟨us, hskip, -, -⟩ := skips_of_skipWhile (f := (· == .newline)) rfl h.lands.getLast? hr
  obtain ⟨hclears, R, hR, hlands⟩ := attains_skipWhile hws (f := (· == .newline))
    (fun k hk => by rw [beq_iff_eq.1 hk]; rfl) h.lands hr
  have hlenient : r.strictness = .lenient := hlands.elim (·.lenient) (·.1.lenient)
  have hLenient : R.strictness = .lenient :=
    (hlands.elim (·.strictness) (·.1.strictness)).trans hlenient
  rw [closeIf_eq hr (by simp [hlenient])] at hq
  rw [closeIf_eq hR (by simp [hLenient])]
  have hdepth (hfound : found = false) : q.blocks.depth < d := by
    subst hfound
    have hblocks : r.blocks = p.blocks := by rw [hskip.session]
    rw [depth_of_lookForElse hq]
    change (r.blocks.pop.modifyTop _).depth < d
    rw [BlockStack.depth_modifyTop, BlockStack.depth_pop, hblocks]
    omega
  rcases hlands with hlands | ⟨hlands, -⟩
  · have hfollows := follows_lookForElse (l := False) (along_ifClosed hlands) outer
    obtain ⟨Q, hQ, hahead⟩ := hfollows.ahead hq
    exact ⟨hclears.trans (hfollows _ _ hq).1, hdepth, .inl ⟨Q, hQ, .inl hahead⟩⟩
  · have hbeyond := along_ifClosed hlands
    have hat : (ifClosed r).AtEnd := hlands.place.atEnd
    rw [lookForElse_of_ne (by simp [hat.kind])] at hq
    by_cases hk : (ifClosed R).token.kind = .keyword .elseBranch
    · cases outer with
      | true => exact absurd (elseNext_of_beyond hbeyond hk) (houter rfl)
      | false =>
        cases hq
        exact ⟨hclears, hdepth,
          .inr ⟨rfl, rfl, ifClosed R, ⟨hbeyond, hk, rfl⟩, lookForElse_of_eq hk⟩⟩
    · rw [lookForElse_of_ne hk]
      have hstays : Stays (Place.Past ws)
          (if outer then endIf >>= fun _ => pure false else pure false : Compile Bool) (ifClosed r)
          (if outer then endIf >>= fun _ => pure false else pure false : Compile Bool)
            (ifClosed R) := by
        split
        · exact (stays_endIf hbeyond).bind fun _ _ _ _ hq => stays_pure hq false
        · exact stays_pure hbeyond false
      have hfound : found = false := by
        cases outer with
        | false =>
          cases hq
          rfl
        | true =>
          obtain ⟨_, _, -, hq⟩ := bind_eq_ok hq
          cases hq
          rfl
      obtain ⟨hs, Q, hQ, hlands⟩ := hstays _ _ hq
      exact ⟨hclears.trans ⟨[], hs.symm, nofun⟩, hdepth, .inl ⟨Q, hQ, .inr ⟨hlands, hdepth hfound⟩⟩⟩

/-! ## The end of bodies -/

/-- Closing the innermost body closes its block, or leaves the blocks alone where that is the body of
an `if` or no body at all. -/
theorem closeInnermost_changes {braced : Bool} : Ensures (closeInnermost braced) p
    (fun _ q => p.Works q ∧ (q.blocks = p.blocks.pop ∨ q.blocks = p.blocks ∧
      (p.blocks.top.brace = braced → p.blocks.top.isBody = true → p.blocks.top.ifBody = true)))
    fun e _ => ¬e.IsRefusal := by
  have hclose (r : Pass) (hr : p.Works r) (hblocks : r.blocks = p.blocks) :
      Ensures (do resolveExit; closeBlock) r
        (fun _ q => p.Works q ∧ (q.blocks = p.blocks.pop ∨ q.blocks = p.blocks ∧
          (p.blocks.top.brace = braced → p.blocks.top.isBody = true → p.blocks.top.ifBody = true)))
        fun e _ => ¬e.IsRefusal := by
    refine resolveExit_changes.bind ?_ fun _ _ => id
    obtain ⟨_, _, _, _, _, rfl⟩ := hr
    rintro - _ ⟨_, _, rfl⟩
    exact ⟨⟨_, _, _, _, _, rfl⟩, .inl (congrArg BlockStack.pop hblocks)⟩
  have hself : p.Works p := ⟨_, _, _, _, _, rfl⟩
  rw [closeInnermost, ensures_bind, ensures_topBlock, ensures_ite]
  split
  · rw [ensures_ite]
    split
    · rw [ensures_bind, ensures_get]
      split
      · exact hclose p hself rfl
      · rw [ensures_bind, ensures_set]
        refine emitWith_changes.bind ?_ fun _ _ => id
        rintro - _ ⟨_, rfl⟩
        exact hclose _ ⟨_, _, _, _, _, rfl⟩ rfl
    · exact hclose p hself rfl
  rw [ensures_ite]
  split
  · simp only [function, ensures_bind, ensures_get]
    split
    · rw [ensures_pure]
      refine emitWith_changes.imp ?_
      rintro - _ ⟨_, rfl⟩
      exact ⟨⟨_, _, _, _, _, rfl⟩, .inl rfl⟩
    · exact not_isRefusal_fault _
  rw [ensures_ite]
  split
  · exact ⟨⟨_, _, _, _, _, rfl⟩, .inl rfl⟩
  · next hloop hfunc hbraced =>
    refine ⟨hself, .inr ⟨rfl, fun hbrace hbody => ?_⟩⟩
    subst hbrace
    simp only [Block.isBody, Bool.or_eq_true, Bool.and_eq_true, Bool.not_eq_true'] at *
    grind

theorem depth_of_closeInnermost {braced : Bool} (h : closeInnermost braced p = .ok () q) :
    q.blocks.depth ≤ p.blocks.depth := by
  rcases (closeInnermost_changes.ok h).2 with hb | ⟨hb, -⟩
  · exact hb ▸ BlockStack.depth_pop_le _
  · rw [hb]

/-- What `closeNext` tells. -/
def ending (brace foundElse : Bool) (blocks : BlockStack) : Closing ⊕ Bool :=
  if blocks.depth > 1 && !foundElse && (!blocks.top.ifEnded || brace) &&
      (!blocks.top.brace || brace) then
    .inl ⟨brace, blocks.top.brace⟩
  else .inr brace

theorem closeNext_eq (brace foundElse : Bool) (p : Pass) :
    closeNext brace foundElse p = .ok (ending brace foundElse p.blocks) p := by
  change (if _ then _ else _ : Compile _) p = _
  unfold ending
  split <;> rfl

/-- An `else` stops the closing. -/
theorem ending_true (brace : Bool) (blocks : BlockStack) : ending brace true blocks = .inr brace :=
  if_neg (by simp)

/-- So does an `if` that may still get its `else`. -/
theorem ending_of_ifEnded {blocks : BlockStack} (h : blocks.top.ifEnded = true) (found : Bool) :
    ending false found blocks = .inr false :=
  if_neg (by simp [h])

theorem of_ending_inl {found : Bool} {blocks : BlockStack} (h : ending brace found blocks = .inl c) :
    c = ⟨brace, blocks.top.brace⟩ ∧ 1 < blocks.depth ∧ found = false := by
  unfold ending at h
  split at h
  · next hcond =>
    cases h
    simp only [Bool.and_eq_true, decide_eq_true_eq, Bool.not_eq_true'] at hcond
    exact ⟨rfl, hcond.1.1.1, hcond.1.1.2⟩
  · cases h

theorem bind_congr_at {β : Type} {m' : Compile α} {R : Pass} (h : m P = m' R) (f : α → Compile β) :
    (m >>= f) P = (m' >>= f) R := by
  simp only [bind, EStateM.bind, h]

/-- Where no token is read both passes stay where they are. -/
theorem landsBelow_of_stays (h : p.LandsBelow ws d P) {M : Compile α} {a : α}
    (hm : ∀ T, p.Along T P → Stays T m p M P) (hq : m p = .ok a q)
    (hd : q.blocks.depth ≤ p.blocks.depth) :
    q.sights = p.sights ∧ ∃ Q, M P = .ok a Q ∧ q.LandsBelow ws d Q := by
  rcases h with h | ⟨h, hlt⟩
  · obtain ⟨hs, Q, hQ, hlands⟩ := hm _ h a q hq
    exact ⟨hs, Q, hQ, .inl hlands⟩
  · obtain ⟨hs, Q, hQ, hlands⟩ := hm _ h a q hq
    exact ⟨hs, Q, hQ, .inr ⟨hlands, Nat.lt_of_le_of_lt hd hlt⟩⟩

/-- A step of the loop that closes bodies. The loop goes on only with a brace that has no `else`
behind it, and not where the second pass has found an `else`. -/
def MeetsClosing (ws : List Sight) (d : Nat) (m : Compile (Closing ⊕ Bool)) (p : Pass)
    (M : Compile (Closing ⊕ Bool)) (P : Pass) : Prop :=
  ∀ a q, m p = .ok a q → p.Clears q ∧
    (∀ c, a = .inl c → q.blocks.depth ≤ d ∧ 1 < q.blocks.depth ∧
      (c.brace = true → ¬ElseNext ws)) ∧
    ((∃ Q, M P = .ok a Q ∧ q.LandsBelow ws d Q) ∨
      a = .inr false ∧ ∃ R, q.Awaits ws R ∧ M P = (elseBranch >>= fun _ => pure (.inr false)) R)

theorem meets_closeAround (hws : Readable ws) (h : p.LandsBelow ws d P) (hd : p.blocks.depth ≤ d)
    (hone : 1 < d) (hc : (c.brace && !c.braced) = true → ¬ElseNext ws) (depth : Nat) :
    MeetsClosing ws d (closeAround c depth) p (closeAround c depth) P := by
  intro a q hq
  have hgo {found : Bool} {r : Pass} (hr : found = false → r.blocks.depth ≤ d) (c' : Closing)
      (hc' : ending (c.brace && !c.braced) found r.blocks = .inl c') :
      r.blocks.depth ≤ d ∧ 1 < r.blocks.depth ∧ (c'.brace = true → ¬ElseNext ws) := by
    obtain ⟨rfl, hdepth, hfound⟩ := of_ending_inl hc'
    exact ⟨hr hfound, hdepth, hc⟩
  by_cases hif : (p.blocks.top.ifBody && (depth == p.blocks.depth || !p.blocks.top.brace)) = true
  · have heq {r : Pass} (hr : r.blocks = p.blocks) : closeAround c depth r =
        (closeIf (c.brace && !c.braced) >>= closeNext (c.brace && !c.braced)) r := by
      change (if _ then _ else _ : Compile _) r = _
      rw [hr, if_pos hif]
    rw [heq rfl] at hq
    rw [heq h.lands.alike.blocks]
    obtain ⟨found, r, hr, hq⟩ := bind_eq_ok hq
    rw [closeNext_eq] at hq
    cases hq
    obtain ⟨hclears, hdepth, ⟨R, hR, hlands⟩ | ⟨rfl, ho, R, hawaits, hR⟩⟩ :=
      meets_closeIf hws h hd hone hc hr
    · refine ⟨hclears, hgo fun hf => (hdepth hf).le, .inl ⟨R, ?_, hlands⟩⟩
      rw [bind_of_ok hR, closeNext_eq, hlands.lands.alike.blocks]
    · rw [ho] at hR hgo ⊢
      refine ⟨hclears, hgo fun hf => (hdepth hf).le, .inr ⟨ending_of_ifEnded hawaits.ended _, R,
        hawaits, ?_⟩⟩
      have hnext : closeNext false true = pure (.inr false) := by
        funext r
        rw [closeNext_eq, ending_true]
        rfl
      rw [bind_congr_at hR, bind_assoc]
      simp only [pure_bind, hnext]
  · have heq {r : Pass} (hr : r.blocks = p.blocks) : closeAround c depth r =
        closeNext (c.brace && !c.braced) false r := by
      change (if _ then _ else _ : Compile _) r = _
      rw [hr, if_neg hif]
      rfl
    rw [heq rfl, closeNext_eq] at hq
    cases hq
    refine ⟨.refl p, hgo fun _ => hd, .inl ⟨P, ?_, h⟩⟩
    rw [heq h.lands.alike.blocks, closeNext_eq, h.lands.alike.blocks]

/-- **Closing one body.** -/
theorem meets_closeOne (hws : Readable ws) (h : p.LandsBelow ws d P) (hd : p.blocks.depth ≤ d)
    (hone : 1 < p.blocks.depth) (hc : c.brace = true → c.braced = true ∨ ¬ElseNext ws) :
    MeetsClosing ws d (closeOne c) p (closeOne c) P := by
  intro a q hq
  have hc' (ho : (c.brace && !c.braced) = true) : ¬ElseNext ws := by
    simp only [Bool.and_eq_true, Bool.not_eq_true'] at ho
    exact (hc ho.1).resolve_left (by simp [ho.2])
  rw [closeOne] at hq ⊢
  by_cases hcond : (c.braced && !c.brace) = true
  · rw [if_pos hcond] at hq
    exact absurd hq (stops_unexpected a q)
  rw [if_neg hcond] at hq ⊢
  obtain ⟨_, r, hr, hq⟩ := bind_eq_ok (m := closeInnermost c.braced) (p := p) hq
  have hdepth := depth_of_closeInnermost hr
  obtain ⟨hs, R, hR, hlands⟩ := landsBelow_of_stays h
    (fun T h => stays_closeInnermost h c.braced) hr hdepth
  obtain ⟨hclears, hgo, hlands⟩ := meets_closeAround hws hlands (hdepth.trans hd)
    (hone.trans_le hd) hc' p.blocks.depth a q hq
  refine ⟨Clears.trans ⟨[], hs.symm, by simp⟩ hclears, hgo, ?_⟩
  change (∃ Q, (closeInnermost c.braced >>= fun _ => closeAround c P.blocks.depth) P = _ ∧ _) ∨
    _ ∧ ∃ R, _ ∧ (closeInnermost c.braced >>= fun _ => closeAround c P.blocks.depth) P = _
  rwa [bind_of_ok hR, h.lands.alike.blocks]

/-- **Closing bodies**, from the innermost one on. -/
theorem meets_closeLoop (hws : Readable ws) {γ : Type} (bound : List γ) (h : p.LandsBelow ws d P)
    (hd : p.blocks.depth ≤ d) (hone : 1 < p.blocks.depth)
    (hc : c.brace = true → c.braced = true ∨ ¬ElseNext ws) {left : Bool}
    (hq : iterate closeOne bound c p = .ok left q) :
    p.Clears q ∧ ((∃ Q, iterate closeOne bound c P = .ok left Q ∧ q.LandsBelow ws d Q) ∨
      left = false ∧ ∃ R, q.Awaits ws R ∧
        iterate closeOne bound c P = (elseBranch >>= fun _ => pure false) R) := by
  induction bound generalizing c p P with
  | nil =>
    rw [iterate] at hq ⊢
    obtain ⟨a, r, hr, hq⟩ := bind_eq_ok hq
    obtain ⟨hclears, -, ⟨R, hR, hlands⟩ | ⟨rfl, R, hawaits, hR⟩⟩ :=
      meets_closeOne hws h hd hone hc a r hr
    · cases a with
      | inl c' => cases hq
      | inr b =>
        cases hq
        exact ⟨hclears, .inl ⟨R, by rw [bind_of_ok hR]; rfl, hlands⟩⟩
    · cases hq
      refine ⟨hclears, .inr ⟨rfl, R, hawaits, ?_⟩⟩
      rw [bind_congr_at hR, bind_assoc]
      simp only [pure_bind]
  | cons x bound ih =>
    rw [iterate] at hq ⊢
    obtain ⟨a, r, hr, hq⟩ := bind_eq_ok hq
    obtain ⟨hclears, hgo, ⟨R, hR, hlands⟩ | ⟨rfl, R, hawaits, hR⟩⟩ :=
      meets_closeOne hws h hd hone hc a r hr
    · rw [bind_of_ok hR]
      cases a with
      | inl c' =>
        obtain ⟨hd', hone', hbrace⟩ := hgo c' rfl
        obtain ⟨hclears', hlands'⟩ := ih hlands hd' hone' (fun hb => .inr (hbrace hb)) hq
        exact ⟨hclears.trans hclears', hlands'⟩
      | inr b =>
        cases hq
        exact ⟨hclears, .inl ⟨R, rfl, hlands⟩⟩
    · cases hq
      refine ⟨hclears, .inr ⟨rfl, R, hawaits, ?_⟩⟩
      rw [bind_congr_at hR, bind_assoc]
      simp only [pure_bind]

/-- What the second pass does where the first one closes bodies. -/
def MeetsEnd (ws : List Sight) (d : Nat) (m : Compile Unit) (p : Pass) (M : Compile Unit)
    (P : Pass) : Prop :=
  ∀ a q, m p = .ok a q → p.Clears q ∧
    ((∃ Q, M P = .ok a Q ∧ q.LandsBelow ws d Q) ∨ ∃ R, q.Awaits ws R ∧ M P = elseBranch R)

theorem meets_closeBehind (hws : Readable ws) (h : p.LandsBelow ws d P) (hd : p.blocks.depth ≤ d)
    (hone : 1 < p.blocks.depth) (hbrace : brace = true → p.blocks.top.brace = true ∨ ¬ElseNext ws) :
    MeetsEnd ws d (closeBehind brace) p (closeBehind brace) P := by
  intro _ q hq
  obtain ⟨left, r, hr, hq⟩ := bind_eq_ok hq
  change iterate closeOne p.blocks.toList ⟨brace, p.blocks.top.brace⟩ p = _ at hr
  have hP : closeBodies brace P = iterate closeOne p.blocks.toList ⟨brace, p.blocks.top.brace⟩ P := by
    rw [← h.lands.alike.blocks]
    rfl
  obtain ⟨hclears, ⟨R, hR, hlands⟩ | ⟨rfl, R, hawaits, hR⟩⟩ :=
    meets_closeLoop hws _ h hd hone hbrace hr
  · change (if r.blocks.isTopLevel && left then _ else _ : Compile Unit) r = _ at hq
    split at hq
    · exact absurd hq (stops_unexpected _ _)
    · next hcond =>
      cases hq
      refine ⟨hclears, .inl ⟨R, ?_, hlands⟩⟩
      rw [closeBehind, bind_of_ok (hP.trans hR)]
      change (if R.blocks.isTopLevel && left then _ else _ : Compile Unit) R = _
      rw [hlands.lands.alike.blocks, if_neg hcond]
      rfl
  · change (if r.blocks.isTopLevel && false then _ else _ : Compile Unit) r = _ at hq
    rw [Bool.and_false, if_neg Bool.false_ne_true] at hq
    cases hq
    refine ⟨hclears, .inr ⟨R, hawaits, ?_⟩⟩
    have hnone : (elseBranch >>= fun _ => do
        let unused ← pure false
        if (← get).blocks.isTopLevel && unused then unexpected else pure ()) = elseBranch := by
      simp only [pure_bind, Bool.and_false, Bool.false_eq_true, if_false]
      exact bind_pure elseBranch
    rw [closeBehind, bind_congr_at (hP.trans hR), bind_assoc]
    exact congrFun hnone R

theorem Stops.ensures {Q : α → Pass → Prop} (h : Stops m p) : Ensures m p Q (fun _ _ => True) := by
  unfold Ensures
  split
  · next hm => exact absurd hm (h _ _)
  · trivial

theorem advance_blocks : Ensures advance p (fun _ q => q.blocks = p.blocks) (fun _ _ => True) := by
  cases hup : p.upcoming with
  | nil => exact ensures_of_ok (advance_of_nil hup) rfl
  | cons r rest =>
    simp only [Ensures, advance_of_cons hup]
    cases r.error <;> trivial

theorem closingBrace_blocks :
    Ensures closingBrace p (fun _ q => q.blocks = p.blocks) (fun _ _ => True) := by
  rw [closingBrace, ensures_bind, ensures_isAt, ensures_ite]
  split
  · refine advance_blocks.bind (fun _ q hq => ?_) fun _ _ _ => trivial
    rw [ensures_bind, ensures_get, ensures_bind, ensures_atDelimiter, ensures_ite]
    split
    · exact hq
    · exact stops_unexpected.ensures
  · trivial

theorem endBody_false (h : 1 < p.blocks.depth) : endBody false p = closeBehind false p := by
  change (if p.blocks.depth ≤ 1 then _ else _ : Compile Unit) p = _
  rw [if_neg (by omega)]
  rfl

theorem endBody_true (h : 1 < p.blocks.depth) :
    endBody true p = (closingBrace >>= fun _ => closeBehind true) p := by
  change (if p.blocks.depth ≤ 1 then _ else _ : Compile Unit) p = _
  rw [if_neg (by omega)]
  rfl

theorem one_lt_of_endBody {a : Unit} (h : endBody brace p = .ok a q) : 1 < p.blocks.depth := by
  change (if p.blocks.depth ≤ 1 then _ else _ : Compile Unit) p = _ at h
  split at h
  · exact absurd h (stops_unexpected a q)
  · omega

/-- **The end of a body.** A brace closes a body that has one, or no `else` is behind the chunk. -/
theorem meets_endBody (hws : Readable ws) (h : p.LandsBelow ws d P) (hd : p.blocks.depth ≤ d)
    (hahead : brace = true → p.Ahead ws P)
    (hbrace : brace = true → p.blocks.top.brace = true ∨ ¬ElseNext ws) :
    MeetsEnd ws d (endBody brace) p (endBody brace) P := by
  intro a q hq
  have hone := one_lt_of_endBody hq
  have hOne : 1 < P.blocks.depth := h.lands.alike.blocks ▸ hone
  cases brace with
  | false =>
    rw [endBody_false hone] at hq
    rw [endBody_false hOne]
    exact meets_closeBehind hws h hd hone (fun hb => absurd hb Bool.false_ne_true) a q hq
  | true =>
    rw [endBody_true hone] at hq
    rw [endBody_true hOne]
    obtain ⟨_, r, hr, hq⟩ := bind_eq_ok hq
    have hfollows : Follows ws False closingBrace p closingBrace P := follows_of_caps (hahead rfl)
    obtain ⟨R, hR, hlands⟩ := hfollows.ahead hr
    have hblocks := closingBrace_blocks.ok hr
    obtain ⟨hclears, hend⟩ := meets_closeBehind hws (.inl hlands) (hblocks ▸ hd) (hblocks ▸ hone)
      (fun hb => hblocks ▸ hbrace hb) a q hq
    refine ⟨(hfollows _ _ hr).1.trans hclears, ?_⟩
    rwa [bind_of_ok hR]

end Compile

end DeskCalc
