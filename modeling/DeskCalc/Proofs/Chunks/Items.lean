import DeskCalc.Proofs.Chunks.Seam

/-!
# Statements and definitions of two passes

What one pass does with an item of its chunk the other one does too (`arrives_item`). Afterwards it is
at the same place, or behind blank tokens that the first pass will find in the next chunk, or it is
about to take an `else` that the first pass will find there.
-/

namespace DeskCalc

namespace Pass

variable {ws : List Sight} {p P : Pass}

/-- The pass has come to the end of its text, and POSIX plays no part. -/
structure Done (p : Pass) : Prop where
  atEnd : p.AtEnd
  lenient : p.strictness = .lenient

/-- A pass goes along with itself. -/
theorem ahead_self (hp : p.strictness = .lenient) (h : p.sights.getLast? = some .eof) :
    p.Ahead [.eof] p := by
  obtain ⟨us, hus⟩ := List.getLast?_eq_some_iff.1 h
  exact
    { program := rfl, strictness := rfl, blocks := rfl, exits := rfl, continues := rfl
      operators := rfl, target := rfl, autoAllowed := id, checkpoint := rfl, lenient := hp
      quitting := rfl
      place := { more := nofun, previous := rfl, sights := ⟨us, hus, hus, .inl rfl⟩ } }

theorem Done.ahead_self (h : p.Done) : p.Ahead [.eof] p :=
  Pass.ahead_self h.lenient (by rw [h.atEnd]; rfl)

theorem Along.done (h : p.Beyond ws P) : p.Done := ⟨h.place.atEnd, h.lenient⟩

end Pass

theorem readable_eof : Readable [.eof] := ⟨rfl, by simp [Sight.eof]⟩

namespace Compile

open Pass

variable {α β γ : Type} {ws : List Sight} {e e' : Prop} {p P : Pass} {m M : Compile Unit}

/-- What `m` does on `p`, `M` does on `P`. The second pass may go on behind the chunk, and if `e` it may
go on with an `else` there. -/
def Arrives (ws : List Sight) (e : Prop) (m : Compile Unit) (p : Pass) (M : Compile Unit) (P : Pass) :
    Prop :=
  ∀ a q, m p = .ok a q → p.Clears q ∧ ((∃ Q, M P = .ok a Q ∧ q.Lands ws Q) ∨
    e ∧ ∃ R, q.Awaits ws R ∧ (M P = elseBranch R ∨ M P = (elseBranch >>= fun _ => statementTail) R))

/-! ## Rules -/

theorem Arrives.mono (h : Arrives ws e m p M P) (he : e → e') : Arrives ws e' m p M P :=
  fun a q hq => (h a q hq).imp_right fun hend => hend.imp_right fun ⟨h, hR⟩ => ⟨he h, hR⟩

/-- An `else` is found only where there is one. -/
theorem Arrives.lands (h : Arrives ws e m p M P) (he : e → ¬ElseNext ws) : Arrives ws False m p M P := by
  intro a q hq
  obtain ⟨hclears, hlands | ⟨h, R, hawaits, -⟩⟩ := h a q hq
  · exact ⟨hclears, .inl hlands⟩
  · exact absurd (elseNext_of_beyond hawaits.beyond hawaits.found) (he h)

theorem Attains.arrives (h : Attains ws m p M P) : Arrives ws e m p M P :=
  fun a q hq => (h a q hq).imp_right .inl

theorem MeetsEnd.arrives {d : Nat} (h : MeetsEnd ws d m p M P) (he : e) : Arrives ws e m p M P := by
  intro a q hq
  obtain ⟨hclears, ⟨Q, hQ, hlands⟩ | ⟨R, hawaits, hR⟩⟩ := h a q hq
  · exact ⟨hclears, .inl ⟨Q, hQ, hlands.lands⟩⟩
  · exact ⟨hclears, .inr ⟨he, R, hawaits, .inl hR⟩⟩

theorem Follows.arrives (h : Follows ws False m p M P) : Arrives ws e m p M P := by
  intro a q hq
  obtain ⟨hclears, hend⟩ := h a q hq
  obtain ⟨Q, hQ, hahead⟩ := hend.resolve_left fun hl => hl.1
  exact ⟨hclears, .inl ⟨Q, hQ, .inl hahead⟩⟩

/-- A sequence whose first half stays within the chunk. -/
theorem Follows.andThen {m M : Compile α} {f F : α → Compile Unit} (hm : Follows ws False m p M P)
    (hf : ∀ a q Q, m p = .ok a q → q.Ahead ws Q → Arrives ws e (f a) q (F a) Q) :
    Arrives ws e (m >>= f) p (M >>= F) P := by
  intro b r h
  obtain ⟨a, q, hq, hr⟩ := bind_eq_ok h
  obtain ⟨Q, hQ, hahead⟩ := hm.ahead hq
  obtain ⟨hclears, hend⟩ := hf a q Q hq hahead b r hr
  refine ⟨(hm a q hq).1.trans hclears, ?_⟩
  rwa [bind_of_ok hQ]

/-- A sequence whose first half finds no `else`. -/
theorem Arrives.andThen {f F : Unit → Compile Unit} (hm : Arrives ws False m p M P)
    (hf : ∀ a q Q, m p = .ok a q → q.Lands ws Q → Arrives ws e (f a) q (F a) Q) :
    Arrives ws e (m >>= f) p (M >>= F) P := by
  intro b r h
  obtain ⟨a, q, hq, hr⟩ := bind_eq_ok h
  obtain ⟨hclears, hend⟩ := hm a q hq
  obtain ⟨Q, hQ, hlands⟩ := hend.resolve_right fun hl => hl.1
  obtain ⟨hclears', hend'⟩ := hf a q Q hq hlands b r hr
  refine ⟨hclears.trans hclears', ?_⟩
  rwa [bind_of_ok hQ]

/-! ## Plain statements -/

/-- From the line feed at the end of its chunk the first pass moves to the end, and the second one to
what is behind it. -/
theorem attains_advance (hws : Readable ws) (h : p.Ahead ws P) : Attains ws advance p advance P := by
  intro a q hq
  obtain ⟨hclears, ⟨hl, hat⟩ | ⟨Q, hQ, hahead⟩⟩ := follows_advance h a q hq
  · have hskip := skips_of_advance (upcoming_ne_nil h.getLast? (by simp [hl.2])) hq
    obtain ⟨vs, hqs, hPs, -⟩ := h.rest hskip
    have hvs : vs = [] := by simpa [AtEnd] using hqs.symm.trans hat
    obtain ⟨w, ts, hw⟩ := List.exists_cons_of_ne_nil h.more
    rw [hvs, List.nil_append] at hPs
    obtain ⟨Q, hQ, hSkip⟩ := exists_advance (hPs.trans (congrArg (_ :: ·) hw))
      (hws.clear w (hw ▸ List.mem_cons_self))
    refine ⟨hclears, Q, hQ, .inr (h.skip hskip hSkip
      { more := hl.1
        atEnd := hat
        sights := ⟨[], List.append_cancel_left (hPs.symm.trans hSkip.sights), by simp, ?_⟩ })⟩
    change Q.previous = _
    rw [hSkip.previous]
    exact (Token.word_fst _).trans hl.2
  · exact ⟨hclears, Q, hQ, .inl hahead⟩

/-- Before its delimiter a statement stays within the chunk, unless it closes a brace. -/
theorem follows_statementHead (h : p.Ahead ws P) (hk : p.token.kind ≠ .newline)
    (hb : p.token.kind ≠ .symbol .rightBrace) :
    Follows ws False (statementHead p.token.kind) p (statementHead p.token.kind) P := by
  by_cases hend : p.token.kind = .eof
  · rw [hend]
    exact stops_unexpected.follows
  have hword : p.AtWord := ⟨hk, hend⟩
  have hhalt : Fine (chunkwise ws) (emit .halt) := fine_emit ⟨rfl, rfl, by simp⟩
  have hprint (op : Opcode) (hop : op.isReturn = false ∧ op.operandCount = 0 ∧ op ≠ .query .read) :
      Follows ws False (printItems op) p (printItems op) P :=
    have := fine_printItems (T := chunkwise ws) hop
    follows_of_lasts hword h
  unfold statementHead
  split
  · have : Caps (expression { printed := true } Ends.statement) := caps_expression rfl
    exact follows_of_lasts hword h
  split
  · next hstring =>
    refine Follows.seq (Nears.follows ((chunkwise ws).string (near_of_ahead h) hstring) hword)
      fun _ q Q _ hq => (stays_emit hq _).follows
  · next hbrace => exact absurd hbrace hb
  · exact follows_of_lasts hword h
  · exact follows_of_lasts hword h
  · exact follows_of_lasts hword h
  · exact follows_of_lasts hword h
  · exact follows_of_lasts hword h
  · exact follows_of_lasts hword h
  · exact hprint _ ⟨rfl, rfl, by simp⟩
  · exact hprint _ ⟨rfl, rfl, by simp⟩
  · exact follows_of_lasts hword h
  · exact follows_of_lasts hword h
  · exact stops_unexpected.follows

theorem plainStatement_eq : plainStatement p = plainFrom p.token.kind p := rfl

theorem attains_plainEnd (hws : Readable ws) (h : p.Ahead ws P) (blocks : BlockStack) :
    Attains ws (plainEnd blocks) p (plainEnd blocks) P := by
  intro a q hq
  change (if blocks.depth == p.blocks.depth && blocks.top == p.blocks.top && !isDelimited p then _
    else _ : Compile Unit) p = _ at hq
  change _ ∧ ∃ Q, (if blocks.depth == P.blocks.depth && blocks.top == P.blocks.top && !isDelimited P
    then _ else _ : Compile Unit) P = _ ∧ _
  rw [h.blocks, isDelimited_eq h]
  split at hq
  · exact absurd hq (stops_unexpected a q)
  · next hcond =>
    rw [if_neg hcond]
    exact attains_statementTail hws (.inl h) a q hq

/-- No delimiter is needed where the open blocks are others. -/
theorem plainEnd_of_ne {blocks : BlockStack}
    (h : blocks.depth ≠ p.blocks.depth ∨ blocks.top ≠ p.blocks.top) :
    plainEnd blocks p = statementTail p := by
  change (if blocks.depth == p.blocks.depth && blocks.top == p.blocks.top && !isDelimited p then _
    else _ : Compile Unit) p = _
  rw [if_neg]
  simp only [Bool.and_eq_true, beq_iff_eq, not_and]
  exact fun heq _ => h.elim (absurd heq.1) (absurd heq.2)

theorem statementTail_of_atEnd (h : p.AtEnd) (hp : p.strictness = .lenient) :
    statementTail p = .ok () p :=
  statementTail_eq (skipWhile_of_false (h.kind ▸ rfl)) hp

/-- The word `else` opens a body without brace and moves to the next token. -/
theorem elseBranch_opens : Ensures elseBranch p
    (fun _ q => ∃ r : Pass, r.token = p.token ∧ r.upcoming = p.upcoming ∧
      r.blocks.depth = p.blocks.depth + 1 ∧ r.blocks.top.brace = false ∧ advance r = .ok () q)
    (fun _ _ => True) := by
  have hlabel (label : Label) (q : Pass) : Ensures (makeLabel label) q
      (fun _ r => ∃ program, r = { q with program := program }) (fun _ _ => True) := by
    simp only [makeLabel, function, ensures_bind, ensures_get]
    split
    · exact ⟨_, rfl⟩
    · trivial
  have hnext : Ensures nextLabel p (fun _ q => q = p) (fun _ _ => True) := by
    simp only [nextLabel, function, ensures_bind, ensures_get]
    split
    · rfl
    · trivial
  rw [elseBranch, ensures_bind, ensures_topBlock, ensures_ite]
  split
  · refine hnext.bind ?_ fun _ _ _ => trivial
    rintro label _ rfl
    refine emitWith_changes.bind ?_ fun _ _ _ => trivial
    rintro - _ ⟨program, rfl⟩
    rw [ensures_bind, endIf, ensures_bind, modifyBlocks, ensures_modify]
    refine resolveExit_changes.mono ?_ fun _ _ _ => trivial
    rintro - _ ⟨program', exits, rfl⟩
    rw [openExit, ensures_bind, ensures_bind]
    refine (hlabel _ _).mono ?_ fun _ _ _ => trivial
    rintro label' _ ⟨program'', rfl⟩
    rw [ensures_bind, ensures_modify, ensures_pure, openBody, ensures_bind, modifyBlocks,
      ensures_modify]
    unfold Ensures
    split
    · next hq => refine ⟨_, ?_, ?_, ?_, ?_, hq⟩ <;> rfl
    · trivial
  · trivial

theorem top_of_elseBranch : Ensures elseBranch p (fun _ q => q.blocks.top.brace = false)
    (fun _ _ => True) := by
  refine elseBranch_opens.mono ?_ fun _ _ _ => trivial
  rintro - q ⟨r, -, -, -, htop, hq⟩
  rw [advance_blocks.ok hq]
  exact htop

theorem depth_of_elseBranch : Ensures elseBranch p
    (fun _ q => q.blocks.depth = p.blocks.depth + 1) (fun _ _ => True) := by
  refine elseBranch_opens.mono ?_ fun _ _ _ => trivial
  rintro - q ⟨r, -, -, hdepth, -, hq⟩
  rw [advance_blocks.ok hq]
  exact hdepth

theorem bind_congr_of_ensures {m : Compile α} {f g : α → Compile β}
    (h : Ensures m p (fun a q => f a q = g a q) (fun _ _ => True)) : (m >>= f) p = (m >>= g) p := by
  simp only [bind, EStateM.bind]
  cases hm : m p with
  | ok a q => exact h.ok hm
  | error e q => rfl

/-- A statement that closes a brace. -/
theorem arrives_closing (hws : Readable ws) (h : p.Ahead ws P)
    (hbrace : p.blocks.top.brace = true ∨ ¬ElseNext ws) :
    Arrives ws True (endBody true >>= fun _ => plainEnd p.blocks) p
      (endBody true >>= fun _ => plainEnd p.blocks) P := by
  intro a q hq
  obtain ⟨_, r, hr, hq⟩ := bind_eq_ok hq
  obtain ⟨hclears, ⟨R, hR, hlands | ⟨hlands, hdepth⟩⟩ | ⟨R, hawaits, hR⟩⟩ :=
    meets_endBody hws (.inl h) (Nat.le_refl _) (fun _ => h) (fun _ => hbrace) _ r hr
  · obtain ⟨hclears', Q, hQ, hlands'⟩ := attains_plainEnd hws hlands p.blocks a q hq
    exact ⟨hclears.trans hclears', .inl ⟨Q, by rw [bind_of_ok hR]; exact hQ, hlands'⟩⟩
  · -- a body was closed, so that neither pass looks for a delimiter
    have hne : p.blocks.depth ≠ r.blocks.depth := by omega
    rw [plainEnd_of_ne (.inl hne)] at hq
    obtain ⟨hclears', Q, hQ, hlands'⟩ := attains_statementTail hws (.inr hlands) a q hq
    refine ⟨hclears.trans hclears', .inl ⟨Q, ?_, hlands'⟩⟩
    rwa [bind_of_ok hR, plainEnd_of_ne (.inl (hlands.blocks ▸ hne))]
  · -- the second pass will open the body of an `else`, and that is no delimiter's place either
    have hat : r.AtEnd := hawaits.beyond.place.atEnd
    have hend : plainEnd p.blocks r = .ok () r := by
      change (if p.blocks.depth == r.blocks.depth && p.blocks.top == r.blocks.top && !isDelimited r
        then _ else _ : Compile Unit) r = _
      rw [if_neg (by simp [isDelimited, hat.kind]), statementTail_of_atEnd hat hawaits.beyond.lenient]
    cases hend.symm.trans hq
    refine ⟨hclears, .inr ⟨trivial, R, hawaits, .inr ?_⟩⟩
    rw [bind_congr_at hR]
    refine bind_congr_of_ensures (top_of_elseBranch.mono (fun _ Q hQ => ?_) fun _ _ _ => trivial)
    refine plainEnd_of_ne (.inr fun heq => ?_)
    have hnext := elseNext_of_beyond hawaits.beyond hawaits.found
    rw [heq, hQ] at hbrace
    exact absurd hnext (hbrace.resolve_left Bool.false_ne_true)

theorem arrives_plainStatement (hws : Readable ws) (h : p.Ahead ws P) (hk : p.token.kind ≠ .newline)
    (hbrace : p.token.kind = .symbol .rightBrace → p.blocks.top.brace = true ∨ ¬ElseNext ws) :
    Arrives ws (p.token.kind = .symbol .rightBrace) plainStatement p plainStatement P := by
  have hplain : Arrives ws (p.token.kind = .symbol .rightBrace) (plainFrom p.token.kind) p
      (plainFrom p.token.kind) P := by
    have hquit : Follows ws False (modify fun p => { p with quitting := true }) p
        (modify fun p => { p with quitting := true }) P := by
      refine Stays.follows (stays_modify ?_ rfl)
      exact { h with quitting := rfl }
    unfold plainFrom
    split
    · exact ((follows_skipWhile h rfl).mono fun hl => absurd hl.2 (by decide)).arrives
    · exact hquit.arrives
    · change Arrives ws _ (statementHead p.token.kind >>= fun _ => plainEnd p.blocks) p
        (statementHead p.token.kind >>= fun _ => plainEnd P.blocks) P
      rw [h.blocks]
      by_cases hb : p.token.kind = .symbol .rightBrace
      · have hclose : statementHead p.token.kind = endBody true := by
          rw [hb]
          rfl
        rw [hclose]
        exact (arrives_closing hws h (hbrace hb)).mono fun _ => hb
      · exact (follows_statementHead h hk hb).andThen fun _ q Q _ hq =>
          (attains_plainEnd hws hq _).arrives
  intro a q hq
  rw [plainStatement_eq] at hq ⊢
  rw [h.kind]
  exact hplain a q hq

/-! ## Bodies -/

theorem stays_forbidAuto {T : Place → Place → Prop} (h : p.Along T P) :
    Stays T forbidAuto p forbidAuto P := by
  refine stays_modify ?_ rfl
  exact { h with autoAllowed := fun hauto => nomatch hauto }

theorem arrives_endBody (hws : Readable ws) (h : p.Lands ws P) :
    Arrives ws True (endBody false) p (endBody false) P :=
  (meets_endBody hws h.below (Nat.le_succ _) (fun hb => absurd hb Bool.false_ne_true)
    fun hb => absurd hb Bool.false_ne_true).arrives trivial

theorem arrives_settleIf (hws : Readable ws) (h : p.Ahead ws P) :
    Arrives ws True settleIf p settleIf P := by
  refine (stays_endIf h).follows.andThen fun _ q Q _ hq => ?_
  change Arrives ws True (if q.blocks.depth > 1 && !q.blocks.top.brace then _ else _) q
    (if Q.blocks.depth > 1 && !Q.blocks.top.brace then _ else _) Q
  rw [hq.blocks]
  split
  · exact arrives_endBody hws (.inl hq)
  · exact (follows_pure hq ()).arrives

theorem innerStatement_eq : innerStatement p = innerFrom p.token.kind p := rfl

theorem arrives_innerStatement (hws : Readable ws) (h : p.Ahead ws P)
    (hbrace : p.token.kind = .symbol .rightBrace →
      p.blocks.top.brace = true ∨ p.blocks.top.ifEnded = true ∨ ¬ElseNext ws) :
    Arrives ws True innerStatement p innerStatement P := by
  have hinner : Arrives ws True (innerFrom p.token.kind) p (innerFrom p.token.kind) P := by
    unfold innerFrom
    split
    · exact (attains_advance hws h).arrives
    · next hk => exact (follows_of_lasts (atWord_of_keyword hk) h).arrives
    · next hk =>
      refine (stays_forbidAuto h).follows.andThen fun _ q Q hm hq => ?_
      cases hm
      refine (arrives_plainStatement hws hq (by simp [hk]) fun hb => ?_).mono fun _ => trivial
      cases hk.symm.trans hb
    · next hline _ _ =>
      refine (stays_forbidAuto h).follows.andThen fun _ q Q hm hq => ?_
      cases hm
      change Arrives ws True (if p.blocks.top.ifEnded then _ else _) _
        (if Q.blocks.top.ifEnded then _ else _) Q
      rw [hq.blocks]
      split
      · exact arrives_settleIf hws hq
      split
      · next hk =>
        refine (stays_openBrace hq).follows.andThen fun _ r R hm hr => ?_
        cases hm
        exact (follows_advance_of_ne hr (by simp [hk])).arrives
      · next hended _ =>
        refine (arrives_plainStatement hws hq hline fun hb => ?_).mono fun _ => trivial
        exact (hbrace hb).imp_right fun he => he.resolve_left hended
  intro a q hq
  rw [innerStatement_eq] at hq ⊢
  rw [h.kind]
  exact hinner a q hq

theorem arrives_ifAt (h : p.Ahead ws P) {k : Token.Kind} {m' M' : Compile Unit}
    (hm : p.token.kind = k → Arrives ws e m p M P) (hm' : p.token.kind ≠ k → Arrives ws e m' p M' P) :
    Arrives ws e (do if ← isAt k then m else m') p (do if ← isAt k then M else M') P := by
  change Arrives ws e (if p.token.kind == k then m else m') p (if P.token.kind == k then M else M') P
  rw [h.kind]
  split
  · next hk => exact hm (beq_iff_eq.1 hk)
  · next hk => exact hm' fun he => hk (beq_iff_eq.2 he)

theorem bodyEnd_true (depth : Nat) : bodyEnd true depth = pure () := by
  funext p
  change (if _ then _ else _ : Compile Unit) p = _
  rw [if_neg (by simp)]

theorem arrives_bodyEnd (hws : Readable ws) (h : p.Lands ws P) (depth : Nat) :
    Arrives ws True (bodyEnd false depth) p (bodyEnd false depth) P := by
  have hquitting : P.quitting = p.quitting := h.elim (·.quitting) (·.quitting)
  change Arrives ws True
    (if !p.quitting && !false && !p.blocks.top.awaited && depth ≤ p.blocks.depth then _ else _) p
    (if !P.quitting && !false && !P.blocks.top.awaited && depth ≤ P.blocks.depth then _ else _) P
  rw [h.alike.blocks, hquitting]
  split
  · exact arrives_endBody hws h
  · rintro _ _ ⟨⟩
    exact ⟨.refl p, .inl ⟨P, rfl, h⟩⟩

theorem arrives_functionStart (hws : Readable ws) (h : p.Ahead ws P) :
    Arrives ws True functionStart p functionStart P := by
  have hallow : Stays (Place.Level ws) (modify fun p => { p with autoAllowed := true }) p
      (modify fun p => { p with autoAllowed := true }) P := by
    refine stays_modify ?_ rfl
    exact { h with autoAllowed := fun _ => rfl }
  have hline {q Q : Pass} (hq : q.Ahead ws Q) :
      Arrives ws True (do if ← isAt .newline then advance else pure ()) q
        (do if ← isAt .newline then advance else pure ()) Q :=
    arrives_ifAt hq (fun _ => (attains_advance hws hq).arrives) fun _ => (follows_pure hq ()).arrives
  refine hallow.follows.andThen fun _ q Q _ hq => arrives_ifAt hq (fun hk => ?_) fun _ => hline hq
  exact (follows_of_lasts (atWord_of_keyword hk) hq).andThen fun _ r R _ hr => hline hr

/-- The pass in which the body of the innermost block is no longer awaited. -/
def bodyBegun (p : Pass) : Pass :=
  { p with blocks := p.blocks.modifyTop ({ · with awaited := false }) }

theorem body_eq (brace : Bool) (p : Pass) : body brace p =
    (if p.blocks.top.funcBody then if brace then functionStart else unexpected
      else innerStatement >>= fun _ => bodyEnd brace p.blocks.depth : Compile Unit) (bodyBegun p) := by
  change (if p.blocks.top.funcBody then _ else _ : Compile Unit) (bodyBegun p) = _
  split <;> rfl

theorem ahead_bodyBegun (h : p.Ahead ws P) : (bodyBegun p).Ahead ws (bodyBegun P) :=
  { h with blocks := congrArg (fun s => s.modifyTop ({ · with awaited := false })) h.blocks }

/-- The beginning of a body with a brace. -/
theorem arrives_body_true (hws : Readable ws) (h : p.Ahead ws P)
    (hbrace : p.blocks.top.brace = true) : Arrives ws True (body true) p (body true) P := by
  have hbegun := ahead_bodyBegun h
  intro a q hq
  rw [body_eq] at hq ⊢
  rw [h.blocks]
  split at hq
  · next hfunc =>
    rw [if_pos hfunc]
    exact arrives_functionStart hws hbegun a q hq
  · next hfunc =>
    rw [if_neg hfunc]
    simp only [bodyEnd_true, bind_pure_unit] at hq ⊢
    exact arrives_innerStatement hws hbegun (fun _ => .inl hbrace) a q hq

/-- The tokens that begin the only statement of a body without brace. -/
def BeginsBody (k : Token.Kind) : Prop :=
  k ≠ .newline ∧ k ≠ .keyword .autoDecl ∧ k ≠ .keyword .elseBranch ∧ k ≠ .symbol .leftBrace

theorem innerFrom_of_beginsBody {k : Token.Kind} (h : BeginsBody k) : innerFrom k = (do
    forbidAuto
    if (← topBlock).ifEnded then settleIf else plainStatement) := by
  obtain ⟨hline, hauto, helse, hopen⟩ := h
  unfold innerFrom
  split
  · exact absurd rfl hline
  · exact absurd rfl hauto
  · exact absurd rfl helse
  · rw [if_neg hopen]

theorem innerStatement_of_beginsBody (h : BeginsBody p.token.kind)
    (hended : p.blocks.top.ifEnded = false) :
    innerStatement p = (forbidAuto >>= fun _ => plainStatement) p := by
  rw [innerStatement_eq, innerFrom_of_beginsBody h]
  change (if p.blocks.top.ifEnded then _ else _ : Compile Unit) _ = _
  rw [if_neg (by simp [hended])]
  rfl

/-- A body without brace. -/
theorem arrives_body_false (hws : Readable ws) (h : p.Ahead ws P)
    (hk : BeginsBody p.token.kind) (hended : p.blocks.top.ifEnded = false)
    (hbrace : p.token.kind = .symbol .rightBrace → ¬ElseNext ws) :
    Arrives ws True (body false) p (body false) P := by
  have hbegun := ahead_bodyBegun h
  have hinner : Arrives ws False innerStatement (bodyBegun p) innerStatement (bodyBegun P) := by
    intro a q hq
    rw [innerStatement_of_beginsBody (p := bodyBegun p) hk hended] at hq
    rw [innerStatement_of_beginsBody (hbegun.kind ▸ hk) (by rw [hbegun.blocks]; exact hended)]
    refine Follows.andThen (stays_forbidAuto hbegun).follows (fun _ r R hm hr => ?_) a q hq
    cases hm
    exact (arrives_plainStatement hws hr hk.1 fun hk => .inr (hbrace hk)).lands hbrace
  intro a q hq
  rw [body_eq] at hq ⊢
  rw [h.blocks]
  split at hq
  · exact absurd hq (stops_unexpected a q)
  · next hfunc =>
    rw [if_neg hfunc]
    exact hinner.andThen (fun _ r R _ hr => arrives_bodyEnd hws hr _) a q hq

/-! ## Items -/

theorem statement_eq : statement p = statementFrom p.token.kind p.blocks.top p := rfl

/-- **Statements.** A closing brace closes a body that has one, or ends an `if`, or has no `else` behind
the chunk. -/
theorem arrives_statement (hws : Readable ws) (h : p.Ahead ws P)
    (hbrace : p.token.kind = .symbol .rightBrace →
      p.blocks.top.brace = true ∨ p.blocks.top.ifEnded = true ∨ ¬ElseNext ws) :
    Arrives ws True statement p statement P := by
  have hstatement : Arrives ws True (statementFrom p.token.kind p.blocks.top) p
      (statementFrom p.token.kind p.blocks.top) P := by
    unfold statementFrom
    split
    · exact arrives_innerStatement hws h hbrace
    next hinner =>
    simp only [not_or, Bool.not_eq_true] at hinner
    split
    · next hopen =>
      have hk : p.token.kind = .symbol .leftBrace := beq_iff_eq.1 (Bool.and_eq_true _ _ ▸ hopen).2
      refine (stays_forbidAuto h).follows.andThen fun _ q Q hm hq => ?_
      cases hm
      refine (stays_modifyBlocks hq _).follows.andThen fun _ r R hm hr => ?_
      cases hm
      refine (follows_advance_of_ne hr (by simp [hk])).andThen fun _ q Q hm hq => ?_
      refine arrives_body_true hws hq ?_
      rw [advance_blocks.ok hm]
      rfl
    next hopen =>
    split
    · next hawaited =>
      simp only [Bool.and_eq_true, Bool.not_eq_true', beq_iff_eq] at hopen hawaited
      refine (stays_forbidAuto h).follows.andThen fun _ q Q hm hq => ?_
      cases hm
      refine arrives_body_false hws hq
        ⟨hinner.1, hinner.2.1, hinner.2.2.1, fun hk => hopen ⟨hawaited.1, hk⟩⟩ hinner.2.2.2
        fun hk => ?_
      rcases hbrace hk with hb | hended | hnext
      · exact absurd hb (by simp [hawaited.2])
      · exact absurd hended (by simp [hinner.2.2.2])
      · exact hnext
    · exact arrives_innerStatement hws h hbrace
  intro a q hq
  rw [statement_eq] at hq ⊢
  rw [h.kind, h.blocks]
  exact hstatement a q hq

/-! ## Closing everything -/

/-- What `m` does on `p`, `M` does on `P`, or the first pass comes to the end of its chunk. -/
def Keeps (ws : List Sight) (m : Compile α) (p : Pass) (M : Compile α) (P : Pass) : Prop :=
  ∀ a q, m p = .ok a q →
    p.Clears q ∧ ((∃ Q, M P = .ok a Q ∧ q.Ahead ws Q) ∨ ws ≠ [.eof] ∧ q.Done)

theorem Follows.keeps {m M : Compile α} (h : Follows ws False m p M P) : Keeps ws m p M P :=
  fun a q hq => (h a q hq).imp_right fun hend => .inl (hend.resolve_left fun hl => hl.1)

theorem Keeps.follows {m M : Compile α} (h : Keeps [.eof] m p M P) : Follows [.eof] False m p M P :=
  fun a q hq => (h a q hq).imp_right fun hend => .inr (hend.resolve_right fun hl => hl.1 rfl)

/-- What goes along with itself does not leave the end of a text. -/
theorem Keeps.done {m M : Compile α} {a : α} {q : Pass} (h : Keeps [.eof] m p M P) (hp : p.Done)
    (hq : m p = .ok a q) : q.Done := by
  obtain ⟨hclears, ⟨Q, -, hahead⟩ | ⟨hne, -⟩⟩ := h a q hq
  · exact ⟨hp.atEnd.of_clears hclears, hahead.lenient⟩
  · exact absurd rfl hne

theorem Follows.thenKeeps {m M : Compile β} {f F : β → Compile α} (hm : Follows ws False m p M P)
    (hf : ∀ b q Q, q.Ahead ws Q → Keeps ws (f b) q (F b) Q) :
    Keeps ws (m >>= f) p (M >>= F) P := by
  intro a r h
  obtain ⟨b, q, hq, hr⟩ := bind_eq_ok h
  obtain ⟨Q, hQ, hahead⟩ := hm.ahead hq
  obtain ⟨hclears, hend⟩ := hf b q Q hahead a r hr
  refine ⟨(hm b q hq).1.trans hclears, ?_⟩
  rwa [bind_of_ok hQ]

/-- A loop whose repetitions all go along, over whatever text. -/
theorem keeps_iterate {step : α → Compile (α ⊕ β)}
    (hstep : ∀ {ws : List Sight} (_ : Readable ws) (a : α) {p P : Pass} (_ : p.Ahead ws P),
      Keeps ws (step a) p (step a) P) (hws : Readable ws) (bound : List γ) (a : α)
    (h : p.Ahead ws P) : Keeps ws (iterate step bound a) p (iterate step bound a) P := by
  -- at the end of its chunk the first pass stays there, as it goes along with itself
  have hdone {p : Pass} (hp : p.Done) (bound : List γ) (a : α) {b : β} {q : Pass}
      (hq : iterate step bound a p = .ok b q) : p.Clears q ∧ q.Done := by
    have hself := follows_iterate (l := False)
      (fun a p P h => (hstep readable_eof a (p := p) (P := P) h).follows) False.elim
      (Nat.le_refl bound.length) a hp.ahead_self
    exact ⟨(hself b q hq).1, hself.keeps.done hp hq⟩
  induction bound generalizing a p P with
  | nil =>
    intro b q hq
    rw [iterate] at hq ⊢
    obtain ⟨s, r, hr, hs⟩ := bind_eq_ok hq
    cases s with
    | inl a' => cases hs
    | inr b' =>
      cases hs
      obtain ⟨hclears, ⟨R, hR, hahead⟩ | hend⟩ := hstep hws a h _ _ hr
      · exact ⟨hclears, .inl ⟨R, by rw [bind_of_ok hR]; rfl, hahead⟩⟩
      · exact ⟨hclears, .inr hend⟩
  | cons c bound ih =>
    intro b q hq
    rw [iterate] at hq ⊢
    obtain ⟨s, r, hr, hs⟩ := bind_eq_ok hq
    obtain ⟨hclears, ⟨R, hR, hahead⟩ | ⟨hne, hend⟩⟩ := hstep hws a h _ _ hr
    · rw [bind_of_ok hR]
      cases s with
      | inl a' =>
        obtain ⟨hclears', hq'⟩ := ih a' hahead _ _ hs
        exact ⟨hclears.trans hclears', hq'⟩
      | inr b' =>
        cases hs
        exact ⟨hclears, .inl ⟨R, rfl, hahead⟩⟩
    · cases s with
      | inl a' =>
        obtain ⟨hclears', hq'⟩ := hdone hend bound a' hs
        exact ⟨hclears.trans hclears', .inr ⟨hne, hq'⟩⟩
      | inr b' =>
        cases hs
        exact ⟨hclears, .inr ⟨hne, hend⟩⟩

theorem keeps_endBody (hws : Readable ws) (h : p.Ahead ws P) :
    Keeps ws (endBody false) p (endBody false) P := by
  intro a q hq
  obtain ⟨hclears, ⟨Q, hQ, hlands | hlands⟩ | ⟨-, R, hawaits, -⟩⟩ :=
    arrives_endBody hws (.inl h) a q hq
  · exact ⟨hclears, .inl ⟨Q, hQ, hlands⟩⟩
  · exact ⟨hclears, .inr ⟨hlands.place.more, Along.done hlands⟩⟩
  · exact ⟨hclears, .inr ⟨hawaits.beyond.place.more, Along.done hawaits.beyond⟩⟩

theorem keeps_closeAllBody (hws : Readable ws) (h : p.Ahead ws P) (depth : Nat) :
    Keeps ws (closeAllBody depth) p (closeAllBody depth) P := by
  unfold closeAllBody
  split
  · intro s r hr
    obtain ⟨a, q, hq, hr⟩ := bind_eq_ok hr
    have hrest (q : Pass) : (do
        if (← get).blocks.depth ≥ depth then pure (.inr false) else pure (.inl ()) :
          Compile (Unit ⊕ Bool)) q =
        .ok (if q.blocks.depth ≥ depth then .inr false else .inl ()) q := by
      change (if q.blocks.depth ≥ depth then _ else _ : Compile _) q = _
      split <;> rfl
    cases (hrest q).symm.trans hr
    obtain ⟨hclears, ⟨Q, hQ, hahead⟩ | hend⟩ := keeps_endBody hws h a r hq
    · refine ⟨hclears, .inl ⟨Q, ?_, hahead⟩⟩
      rw [bind_of_ok hQ, hrest, hahead.blocks]
    · exact ⟨hclears, .inr hend⟩
  · exact (follows_pure h _).keeps

theorem keeps_closeAllStep (hws : Readable ws) (u : Unit) (h : p.Ahead ws P) :
    Keeps ws (closeAllStep u) p (closeAllStep u) P := by
  have heq (r : Pass) : closeAllStep u r =
      (if r.blocks.depth > 1 || r.blocks.top.ifEnded then
        if r.blocks.top.ifEnded then endIf >>= fun _ => closeAllBody r.blocks.depth
        else closeAllBody r.blocks.depth
      else pure (.inr r.blocks.isIdle) : Compile _) r := by
    change (if _ then _ else _ : Compile _) r = _
    split
    · split <;> rfl
    · rfl
  have hstep : Keeps ws
      (if p.blocks.depth > 1 || p.blocks.top.ifEnded then
        if p.blocks.top.ifEnded then endIf >>= fun _ => closeAllBody p.blocks.depth
        else closeAllBody p.blocks.depth
      else pure (.inr p.blocks.isIdle)) p
      (if p.blocks.depth > 1 || p.blocks.top.ifEnded then
        if p.blocks.top.ifEnded then endIf >>= fun _ => closeAllBody p.blocks.depth
        else closeAllBody p.blocks.depth
      else pure (.inr p.blocks.isIdle)) P := by
    split
    · split
      · exact (stays_endIf h).follows.thenKeeps fun _ q Q hq => keeps_closeAllBody hws hq _
      · exact keeps_closeAllBody hws h _
    · exact (follows_pure h _).keeps
  intro s q hq
  rw [heq] at hq ⊢
  rw [h.blocks]
  exact hstep s q hq

theorem keeps_closeAll (hws : Readable ws) (h : p.Ahead ws P) :
    Keeps ws closeAll p closeAll P := by
  rw [closeAll]
  change Keeps ws (if p.blocks.isIdle then _ else _) p (if P.blocks.isIdle then _ else _) P
  rw [h.blocks]
  split
  · exact (follows_pure h _).keeps
  split
  · exact (follows_pure h _).keeps
  · exact keeps_iterate (fun hws u _ _ h => keeps_closeAllStep hws u h) hws _ _ h

theorem stops_define (h : p.AtEnd) : Stops define p := by
  intro a q hq
  obtain ⟨_, r, hr, hq⟩ := bind_eq_ok hq
  cases (advance_of_nil h.upcoming).symm.trans hr
  have hat : ({ p with previous := p.token.kind } : Pass).AtEnd := h
  exact (stops_functionName hat).bind a q hq

theorem item_eq_statement (hk : p.token.kind ≠ .keyword .define) : item p = statement p := by
  change (if p.token.kind == .keyword .define then _ else statement : Compile Unit) p = _
  rw [if_neg (by simpa using hk)]

/-- **Items.** -/
theorem arrives_item (hws : Readable ws) (h : p.Ahead ws P)
    (hbrace : p.token.kind = .symbol .rightBrace →
      p.blocks.top.brace = true ∨ p.blocks.top.ifEnded = true ∨ ¬ElseNext ws) :
    Arrives ws True item p item P := by
  refine arrives_ifAt h (fun _ => ?_) fun _ => arrives_statement hws h hbrace
  change Arrives ws True (if p.blocks.isIdle then _ else _) p (if P.blocks.isIdle then _ else _) P
  rw [h.blocks]
  split
  · exact (follows_of_caps h).arrives
  · intro a q hq
    obtain ⟨all, r, hr, hq⟩ := bind_eq_ok hq
    obtain ⟨hclears, ⟨R, hR, hahead⟩ | ⟨-, hend⟩⟩ := keeps_closeAll hws h all r hr
    · rw [bind_of_ok hR]
      cases all with
      | true =>
        obtain ⟨hclears', hend⟩ := (follows_of_caps hahead).arrives a q hq
        exact ⟨hclears.trans hclears', hend⟩
      | false => exact absurd hq (stops_refuseHere a q)
    · cases all with
      | true => exact absurd hq (stops_define hend.atEnd a q)
      | false => exact absurd hq (stops_refuseHere a q)

end Compile

end DeskCalc
