import DeskCalc.Proofs.Sessions

/-!
# Accepted texts have their brackets in order

Along a chunk a `Ledger` is kept: the parentheses of what was read are in order, and as many braces
are open as the open blocks have. Every statement keeps it. Where a whole text is accepted nothing
is open at its end, so that all of its brackets have their partners, apart from those that the
compiler puts up with: `Session.accepted_parens` and `Session.accepted_braces`.
-/

namespace DeskCalc

/-- The parentheses of `w` are in order, and `n` braces are open behind it. -/
structure Accounts (w : List Token.Kind) (n : Nat) (behind : List Token.Kind) : Prop where
  parens : ∀ behind, ∃ v, Prunes SurplusParen behind [] w v ∧ Bracket.paren.Even v
  braces : ∃ v, Prunes StrayBrace behind [] w v ∧ Bracket.brace.height 0 v = some n

namespace Accounts

variable {v w behind : List Token.Kind} {m n : Nat}

theorem nil : Accounts [] 0 behind := ⟨fun _ => ⟨[], .nil, .nil⟩, [], .nil, rfl⟩

theorem append (h : Accounts w n (v ++ behind))
    (hparens : ∀ behind, ∃ u, Prunes SurplusParen behind w v u ∧ Bracket.paren.Even u)
    (hbraces : ∃ u, Prunes StrayBrace behind w v u ∧ Bracket.brace.height n u = some m) :
    Accounts (w ++ v) m behind := by
  refine ⟨fun behind' => ?_, ?_⟩
  · obtain ⟨u, hu, heven⟩ := h.parens (v ++ behind')
    obtain ⟨u', hu', heven'⟩ := hparens behind'
    exact ⟨u ++ u', hu.append hu', heven.append heven'⟩
  · obtain ⟨u, hu, hheight⟩ := h.braces
    obtain ⟨u', hu', hheight'⟩ := hbraces
    refine ⟨u ++ u', hu.append hu', ?_⟩
    rw [Bracket.height_append, hheight]
    exact hheight'

theorem clause (h : Accounts w n (v ++ behind)) (hv : Clause [] v) :
    Accounts (w ++ v) n behind := by
  have hv' : Clause w v := by simpa using hv.mono w
  exact h.append hv'.parens ⟨v, .refl v, hv.braces n⟩

theorem openBrace (h : Accounts w n (.symbol .leftBrace :: behind)) :
    Accounts (w ++ [.symbol .leftBrace]) (n + 1) behind :=
  h.append (v := [_]) (fun _ => ⟨_, .refl _, .single rfl⟩) ⟨_, .refl _, rfl⟩

theorem closeBrace (h : Accounts w (n + 1) (.symbol .rightBrace :: behind)) :
    Accounts (w ++ [.symbol .rightBrace]) n behind :=
  h.append (v := [_]) (fun _ => ⟨_, .refl _, .single rfl⟩) ⟨_, .refl _, rfl⟩

/-- A brace that closes nothing. -/
theorem strayBrace
    (h : Accounts w n (.symbol .rightBrace :: .keyword .elseBranch :: behind))
    (hw : AfterHeader w) :
    Accounts (w ++ [.symbol .rightBrace]) n (.keyword .elseBranch :: behind) :=
  h.append (v := [_]) (fun _ => ⟨_, .refl _, .single rfl⟩) ⟨[], .drop (.intro hw) .nil, rfl⟩

end Accounts

/-- Of the tokens `w`, which were read, the brackets are in order, and the braces that are open are
those of the open blocks. A body is only awaited behind its header. -/
structure Ledger (w : List Token) (p : Pass) : Prop where
  accounts : Accounts (kindsOf w) p.blocks.openBraces (kindsOf p.rest)
  calm : p.blocks.Calm
  awaited : p.blocks.top.awaited = true →
    p.blocks.top.Awaits ∧ (p.blocks.top.funcBody = true ∨ AfterHeader (kindsOf w))
  auto : p.autoAllowed = true → p.blocks.top.brace = true

namespace Ledger

variable {v w : List Token} {p q r : Pass} {b : Block} {s : BlockStack} {left : Bool}
  {mode : Strictness}

section

variable (h : Ledger w p)
include h

theorem quiet (ht : p.blocks.top.awaited = false) : p.blocks.Quiet := ⟨h.calm, ht⟩

/-- What was read has no bracket without its partner, and no brace was opened or closed. -/
theorem accounts_append (hv : Clause [] (kindsOf v)) (hq : p.Onward v q)
    (hn : q.blocks.openBraces = p.blocks.openBraces) :
    Accounts (kindsOf (w ++ v)) q.blocks.openBraces (kindsOf q.rest) := by
  have := h.accounts
  rw [hq.rest, kindsOf_append] at this
  rw [hn, kindsOf_append]
  exact this.clause hv

/-- The blocks stay as they are. -/
theorem keep (ht : p.blocks.top.awaited = false) (hv : Clause [] (kindsOf v)) (hq : p.Onward v q)
    (hb : q.blocks = p.blocks) (hauto : q.autoAllowed = true → p.autoAllowed = true) :
    Ledger (w ++ v) q where
  accounts := h.accounts_append hv hq (by rw [hb])
  calm := hb ▸ h.calm
  awaited ha := by
    rw [hb, ht] at ha
    cases ha
  auto ha := hb ▸ h.auto (hauto ha)

/-- Semicolons and line feeds do not count. -/
theorem blank (hv : Blank v) (hq : p.Onward v q) (hb : q.blocks = p.blocks)
    (hauto : q.autoAllowed = true → p.autoAllowed = true) : Ledger (w ++ v) q := by
  have hmild : Mild .lenient (kindsOf v) := hv.mild
  have hclause : Clause [] (kindsOf v) := .of_plain hmild.toPlain
  refine ⟨h.accounts_append hclause hq (by rw [hb]), hb ▸ h.calm, fun ha => ?_,
    fun ha => hb ▸ h.auto (hauto ha)⟩
  rw [hb] at ha ⊢
  obtain ⟨hawaits, hfunc | hw⟩ := h.awaited ha
  · exact ⟨hawaits, .inl hfunc⟩
  · refine ⟨hawaits, .inr ?_⟩
    rw [kindsOf_append]
    exact hw.append hv.kinds

/-- Nothing is read and no body is awaited, and the braces of the blocks stay. -/
theorem pose (hq : p.Onward [] q) (hs : q.blocks.Quiet)
    (hn : q.blocks.openBraces = p.blocks.openBraces)
    (hauto : q.autoAllowed = true → q.blocks.top.brace = true) : Ledger w q where
  accounts := by simpa using h.accounts_append (v := []) (.of_plain .nil) hq hn
  calm := hs.calm
  awaited ha := by
    rw [hs.top] at ha
    cases ha
  auto := hauto

/-- The header of a body opens a block. -/
theorem header (hs : s.Quiet) (hn : s.openBraces = p.blocks.openBraces) (hv : Header (kindsOf v))
    (hb : b.Awaits) (hq : p.Onward v q) (hblocks : q.blocks = s.push b)
    (hauto : q.autoAllowed = false) : Ledger (w ++ v) q where
  accounts := by
    refine h.accounts_append hv.clause hq ?_
    rw [hblocks, BlockStack.openBraces_push, hb.brace, hn]
    rfl
  calm := hblocks ▸ hs.push b
  awaited _ := by
    rw [hblocks, kindsOf_append]
    exact ⟨hb, .inr (afterHeader_of_header hv)⟩
  auto ha := by
    rw [hauto] at ha
    cases ha

/-- Bodies were closed, and maybe an `else` was read. -/
theorem shut {brace : Bool} (ht : p.blocks.top.awaited = false)
    (hs : Shut mode p.blocks brace left v q.blocks) {u : List Token}
    (haccounts : Accounts (kindsOf (w ++ u)) q.blocks.openBraces (kindsOf (v ++ q.rest)))
    (hauto : q.autoAllowed = false) : Ledger (w ++ (u ++ v)) q where
  accounts := by
    rw [← List.append_assoc, kindsOf_append]
    rw [kindsOf_append v] at haccounts
    exact haccounts.clause (.of_plain hs.mild.toPlain)
  calm := hs.calm (h.quiet ht)
  awaited ha := by
    obtain ⟨hv, hawaits⟩ := hs.eq_else (h.quiet ht) ha
    refine ⟨hawaits, .inr ?_⟩
    rw [← List.append_assoc, kindsOf_append, hv]
    exact afterHeader_of_header .elseBranch
  auto ha := by
    rw [hauto] at ha
    cases ha

/-- The bodies had no brace. -/
theorem ended (ht : p.blocks.top.awaited = false) (hq : Ended none p v q)
    (hauto : q.autoAllowed = false) : Ledger (w ++ v) q := by
  obtain ⟨left, hs, -⟩ := hq.closed.shut
  have hbraces := hs.braces
  have haccounts := h.accounts
  rw [hq.arrives.rest] at haccounts
  cases left with
  | false =>
    rw [← show q.blocks.openBraces = p.blocks.openBraces from hbraces] at haccounts
    simpa using h.shut ht hs (u := []) (by simpa using haccounts) hauto
  | true => cases hs.spent rfl

/-- A closing brace was read, and bodies were closed. -/
theorem closed (ht : p.blocks.top.awaited = false) {t : Token} (hk : t.kind = .symbol .rightBrace)
    (hq : q.Arrives none p (t :: v) q.blocks)
    (hclosed : Compile.Closed none p.strictness p.blocks true v q.blocks)
    (hstray : p.blocks.top.brace = false → AfterHeader (kindsOf w)) (hauto : q.autoAllowed = false) :
    Ledger (w ++ t :: v) q := by
  obtain ⟨left, hs, hleft⟩ := hclosed.shut
  have hbraces := hs.braces
  have haccounts := h.accounts
  rw [hq.rest, List.cons_append, kindsOf_cons hk (by simp)] at haccounts
  refine h.shut ht hs (u := [t]) ?_ hauto
  rw [kindsOf_append w, kindsOf_single hk (by simp)]
  cases left with
  | false =>
    rw [← show q.blocks.openBraces + 1 = p.blocks.openBraces from hbraces] at haccounts
    exact haccounts.closeBrace
  | true =>
    obtain ⟨hv, hbrace⟩ := hleft rfl
    rw [← show q.blocks.openBraces = p.blocks.openBraces by simpa using hbraces] at haccounts
    rw [kindsOf_append, hv] at haccounts ⊢
    exact haccounts.strayBrace (hstray hbrace)

/-- **The part of a statement before its delimiter.** -/
theorem headed (hauto : p.autoAllowed = false)
    (hawaited : p.token.kind.isBeforeBody = false → p.blocks.top.awaited = false)
    (hstray : p.token.kind.isBeforeBody = false → p.blocks.top.ifEnded = false →
      p.blocks.top.brace = false → 1 < p.blocks.depth → AfterHeader (kindsOf w))
    (hq : Headed none p v q) : Ledger (w ++ v) q ∧ (q.blocks.Anchored ∨ q.blocks = p.blocks) := by
  have hlate : q.autoAllowed = false := hq.arrives.autoAllowed.trans hauto
  have honward : p.Onward v q := ⟨_, hq.arrives.toFrom⟩
  cases hq with
  | stays hk _ hv hq =>
    exact ⟨h.keep (hawaited hk) hv.clause honward hq.blocks (by simp [hlate]), .inr hq.blocks⟩
  | opens hk hv hb hq =>
    refine ⟨h.header (h.quiet (hawaited hk)) rfl hv.header hb honward hq.blocks hlate, .inl ?_⟩
    exact fun _ => .inr (.inl (hq.blocks ▸ hb.awaited))
  | alternative ht hended hb hq =>
    have hquiet : p.blocks.top.awaited = false := by
      by_contra hawaited
      have := (h.awaited (eq_true_of_ne_false hawaited)).1.ifEnded
      cases hended.symm.trans this
    refine ⟨h.header (s := p.blocks.mark false) ⟨h.calm, hquiet⟩
      (BlockStack.openBraces_modifyTop rfl) ?_ hb honward hq.blocks hlate,
      .inl fun _ => .inr (.inl (hq.blocks ▸ hb.awaited))⟩
    rw [kindsOf_single ht (by simp)]
    exact .elseBranch
  | closes hk hended ht hq hclosed =>
    refine ⟨h.closed (hawaited hk) ht hq hclosed (fun hbrace => ?_) hlate, .inl hclosed.anchored⟩
    exact hstray hk hended hbrace hclosed.depth

/-- **A statement that is no body.** -/
theorem made (hawaited : p.token.kind.isBeforeBody = false → p.blocks.top.awaited = false)
    (hstray : p.token.kind.isBeforeBody = false → p.blocks.top.ifEnded = false →
      p.blocks.top.brace = false → 1 < p.blocks.depth → AfterHeader (kindsOf w))
    (hq : Made none p v q) :
    q.quitting = true ∨ Ledger (w ++ v) q ∧ (q.blocks.Anchored ∨ q.blocks = p.blocks) ∧
      (q.autoAllowed = true → p.autoAllowed = true) := by
  have honward := hq.onward
  have hlate {r : Pass} {u : List Token} {t : BlockStack}
      (hr : r.Arrives none { p with autoAllowed := false } u t) : r.autoAllowed = false :=
    hr.autoAllowed
  cases hq with
  | blank auto hauto _ hv hq =>
    have hkept : q.autoAllowed = true → p.autoAllowed = true := fun ha =>
      (hauto (hq.autoAllowed.symm.trans ha)).1
    exact .inr ⟨h.blank hv honward hq.blocks hkept, .inr hq.blocks, hkept⟩
  | quit => exact .inl rfl
  | @auto t v _ hauto ht hv hq =>
    have hclause : Clause [] (kindsOf (t :: v)) := by
      rw [kindsOf_cons ht (by simp)]
      exact (Clause.token rfl rfl).append (.of_plain hv.toPlain)
    have hquiet : p.blocks.top.awaited = false := by
      by_contra hawaited
      have := (h.awaited (eq_true_of_ne_false hawaited)).1.brace
      cases (h.auto hauto).symm.trans this
    exact .inr ⟨h.keep hquiet hclause honward hq.blocks (by simp [hlate hq]),
      .inr hq.blocks, by simp [hlate hq]⟩
  | @plain v w' r _ hr _ hw hq _ =>
    have hforbid : Ledger w { p with autoAllowed := false } := { h with auto := by simp }
    obtain ⟨hledger, hblocks⟩ := hforbid.headed rfl hawaited hstray hr
    have hauto : q.autoAllowed = false := hq.autoAllowed.trans (hlate hr.arrives)
    have hblank := hledger.blank hw ⟨_, hq.toFrom⟩ hq.blocks (by simp [hauto])
    rw [List.append_assoc] at hblank
    rw [← hq.blocks] at hblocks
    exact .inr ⟨hblank, hblocks, by simp [hauto]⟩
  | settle hk hended hq hbrace =>
    have hposed := h.pose honward (hq.blocks ▸ ⟨h.calm, hawaited hk⟩)
      (by rw [hq.blocks, BlockStack.openBraces_modifyTop rfl]) (by simp [hlate hq])
    rw [List.append_nil]
    refine .inr ⟨hposed, .inl fun hdepth => .inl ?_, by simp [hlate hq]⟩
    rw [hq.blocks] at hdepth ⊢
    exact hbrace hdepth
  | settleEnd hk hended hr hq =>
    have hposed := h.pose ⟨false, hr.toFrom⟩ (hr.blocks ▸ ⟨h.calm, hawaited hk⟩)
      (by rw [hr.blocks, BlockStack.openBraces_modifyTop rfl]) (by simp [hlate hr])
    have hauto : q.autoAllowed = false := hq.arrives.autoAllowed.trans (hlate hr)
    refine .inr ⟨hposed.ended (hr.blocks ▸ hawaited hk) hq hauto, .inl hq.closed.anchored,
      by simp [hauto]⟩
  | brace hk ht hq =>
    have haccounts := h.accounts
    rw [honward.rest, List.singleton_append, kindsOf_cons ht (by simp)] at haccounts
    refine .inr ⟨⟨?_, hq.blocks ▸ (h.quiet (hawaited hk)).push _, ?_, by simp [hlate hq]⟩,
      .inl fun _ => .inl (hq.blocks ▸ rfl), by simp [hlate hq]⟩
    · rw [hq.blocks, BlockStack.openBraces_push, kindsOf_append, kindsOf_single ht (by simp)]
      exact haccounts.openBrace
    · rw [hq.blocks]
      exact fun ha => by cases ha

/-- The body of the innermost block begins without a brace. -/
theorem begun (hs : Begins none p r) : Ledger w r := by
  refine h.pose hs.onward ?_ ?_ (by simp [show r.autoAllowed = false from hs.arrives.autoAllowed])
  · rw [hs.arrives.blocks]
    exact ⟨h.calm, rfl⟩
  · rw [hs.arrives.blocks, BlockStack.openBraces_modifyTop rfl]

end

end Ledger

/-- The ledger is kept, and a body without a brace does not stand half done. -/
def Settled (w : List Token) (p : Pass) : Prop :=
  p.quitting = true ∨ Ledger w p ∧ p.blocks.Anchored

/-- **Every deed keeps the brackets in order.** -/
theorem Settled.deed {v w : List Token} {p q : Pass} (h : Settled w p) (hgo : p.quitting = false)
    (hq : Deed none p v q) : Settled (w ++ v) q := by
  obtain ⟨hledger, hanchored⟩ := h.resolve_left (by simp [hgo])
  have honward := hq.onward
  cases hq with
  | inner hq hbefore =>
    have hawaited (hk : p.token.kind.isBeforeBody = false) : p.blocks.top.awaited = false := by
      by_contra ha
      obtain ⟨hawaits, -⟩ := hledger.awaited (eq_true_of_ne_false ha)
      simpa [hk, hawaits.ifEnded, hawaits.brace] using hbefore hawaits.awaited
    refine (hledger.made hawaited (fun hk hended hbrace hdepth => ?_) hq).imp_right ?_
    · simpa [hawaited hk, hended, hbrace] using hanchored hdepth
    · rintro ⟨hq', hblocks, -⟩
      exact ⟨hq', hblocks.elim id fun hsame => hsame ▸ hanchored⟩
  | enter ht hawaited hq =>
    obtain ⟨hawaits, -⟩ := hledger.awaited hawaited
    have haccounts := hledger.accounts
    rw [honward.rest, List.singleton_append, kindsOf_cons ht (by simp)] at haccounts
    have hbrace : q.blocks.top.brace = true := hq.blocks ▸ rfl
    refine .inr ⟨⟨?_, hq.blocks ▸ hledger.calm, ?_, fun _ => hbrace⟩, fun _ => .inl hbrace⟩
    · have hopen : q.blocks.openBraces = p.blocks.openBraces + 1 := by
        rw [hq.blocks, BlockStack.openBraces_eq, BlockStack.openBraces_eq p.blocks, hawaits.brace]
        rfl
      rw [hopen, kindsOf_append, kindsOf_single ht (by simp)]
      exact haccounts.openBrace
    · rw [hq.blocks]
      exact fun ha => by cases ha
  | @bare _ s _ hs hq hleave =>
    have hafter := (hledger.awaited hs.awaited).2.resolve_left (by simp [hs.func])
    have hbegun : s.blocks.top.awaited = false := hs.arrives.blocks ▸ rfl
    rcases (hledger.begun hs).made (fun _ => hbegun) (fun _ _ _ _ => hafter) hq with
      hquit | ⟨hq', hblocks, -⟩
    · exact .inl hquit
    · rcases hleave with hquit | hawaited | hlt
      · exact .inl hquit
      · exact .inr ⟨hq', fun _ => .inr (.inl hawaited)⟩
      · refine .inr ⟨hq', hblocks.resolve_right fun hsame => ?_⟩
        rw [hsame] at hlt
        exact Nat.lt_irrefl _ hlt
  | @ends _ _ s r _ hs hr hgo hawaited hq =>
    have hafter := (hledger.awaited hs.awaited).2.resolve_left (by simp [hs.func])
    have hbegun : s.blocks.top.awaited = false := hs.arrives.blocks ▸ rfl
    obtain ⟨hr', -, hauto⟩ :=
      ((hledger.begun hs).made (fun _ => hbegun) (fun _ _ _ _ => hafter) hr).resolve_left
        (by simp [hgo])
    have hlate : q.autoAllowed = false := by
      by_contra ha
      have := hauto (hq.arrives.autoAllowed.symm.trans (eq_true_of_ne_false ha))
      cases hs.arrives.autoAllowed.symm.trans this
    rw [← List.append_assoc]
    exact .inr ⟨hr'.ended hawaited hq hlate, hq.closed.anchored⟩
  | @define t v b r _ hbrace hr ht hv hb hfunc hq _ =>
    have hblocks : q.blocks = ({} : BlockStack).push b := hq.blocks.trans (by rw [hr.blocks])
    have hclause : Clause [] (kindsOf (t :: v)) := by
      rw [kindsOf_cons ht (by simp)]
      exact (Clause.token rfl rfl).append (.of_plain hv.toPlain)
    refine .inr ⟨⟨?_, ?_, fun _ => ?_, fun ha => ?_⟩, fun _ => .inr (.inl (hblocks ▸ hb.awaited))⟩
    · refine hledger.accounts_append hclause honward ?_
      rw [hblocks, BlockStack.openBraces_of_hasBrace hbrace, BlockStack.openBraces_push, hb.brace]
      rfl
    · rw [hblocks]
      exact BlockStack.Quiet.push ⟨by simp [BlockStack.Calm], rfl⟩ b
    · rw [hblocks]
      exact ⟨hb, .inl hfunc⟩
    · have hopen := hledger.auto (hr.autoAllowed ▸ hq.autoAllowed ▸ ha)
      rw [BlockStack.hasBrace, BlockStack.toList, List.any_cons, hopen] at hbrace
      cases hbrace

/-! ## Whole texts -/

/-- The kinds of the tokens of a text, line feeds apart. -/
def sourceKinds (mode : Strictness) (source : String) : List Token.Kind :=
  kindsOf ((readTokens mode source).map (·.token))

/-- A checkpoint does not change what was read. -/
theorem Settled.commit {w : List Token} {p : Pass} (h : Settled w p) :
    Settled w { p with toSession := p.toSession.commit } := by
  unfold Session.commit
  split
  · exact h.imp_right fun ⟨⟨haccounts, hcalm, hawaited, hauto⟩, hanchored⟩ =>
      ⟨⟨haccounts, hcalm, hawaited, hauto⟩, hanchored⟩
  · exact h

namespace Session

open Compile

/-- What is open at the end of the input has no brace. -/
theorem hasBrace_of_finish {s : Session} {f : Function} (hf : s.program.function? s.target = some f)
    (h : s.finish.1 = .ok ()) : s.blocks.hasBrace = false := by
  have hstart : (Pass.start s "").Poised none := ⟨inOrder_start hf "", by simp⟩
  obtain ⟨g, hg⟩ := hstart.midway
  have hend : Ensures inputEnd (Pass.start s "") (fun _ _ => s.blocks.hasBrace = false)
      (Declines none) := by
    simp only [inputEnd, ensures_bind]
    refine advance_holds hg (by simp [Pass.start]) fun q hq => ?_
    have hq' := arrives_of_midway hstart hq
    refine closeAll_holds hq'.toPoised fun all v r hr _ hall => ?_
    rw [ensures_ite]
    split
    · next hyes => exact hq'.blocks ▸ (hall hyes).2
    · obtain ⟨k, hk⟩ := hr.midway
      exact hk.declines _
  cases hrun : inputEnd (Pass.start s "") with
  | ok a q => exact hend.ok hrun
  | error e q =>
    rw [finish, run, hrun] at h
    cases e <;> cases h

/-- **The account of an accepted text.** -/
theorem accounts_of_finish {options : Options} {source : String} {status : Status}
    (hcompile : ((new options).compile source).1 = .ok status) (hstatus : status ≠ .quit)
    (hfinish : ((new options).compile source).2.finish.1 = .ok ()) :
    ∃ w, sourceKinds options.strictness source = w ++ [.eof] ∧ Accounts w 0 [.eof] := by
  have hstart (q : Pass) (hb : q.blocks = {}) (hauto : q.autoAllowed = false) : Settled [] q := by
    refine .inr ⟨⟨?_, ?_, ?_, by simp [hauto]⟩, ?_⟩ <;> rw [hb]
    · exact .nil
    · simp [BlockStack.Calm]
    · exact fun ha => by cases ha
    · exact fun hd => absurd hd (by simp [BlockStack.depth])
  obtain ⟨u, q, hq, hsession, ⟨-, -, -, g, hg⟩, htokens, hend⟩ := compile_deeds (I := Settled)
    (s := new options) rfl hcompile (fun q hb _ hauto _ _ => hstart q hb hauto)
    (fun _ _ _ _ => Settled.deed) fun _ _ => Settled.commit
  obtain ⟨-, hgo, heof⟩ := hend.resolve_right fun hquit => hstatus hquit.1
  obtain ⟨t, ht, hk⟩ := List.map_eq_singleton_iff.1 heof
  have hkinds : kindsOf q.rest = [.eof] := by rw [ht, kindsOf_single hk (by simp)]
  refine ⟨kindsOf u, ?_, ?_⟩
  · rw [← hkinds, ← kindsOf_append]
    exact congrArg kindsOf htokens
  · have hopen : q.toSession.blocks.hasBrace = false :=
      hasBrace_of_finish hg (by rw [← hsession]; exact hfinish)
    have haccounts := (hq.resolve_left (by simp [hgo])).1.accounts
    rwa [hkinds, BlockStack.openBraces_of_hasBrace hopen] at haccounts

/-- **The parentheses of an accepted text are in order**: every one has its partner, except that of
the parentheses around an empty clause only the last counts, and that a clause of a `for` may be a
lone closing parenthesis. -/
theorem accepted_parens (options : Options) (source : String) {status : Status}
    (hcompile : ((new options).compile source).1 = .ok status) (hstatus : status ≠ .quit)
    (hfinish : ((new options).compile source).2.finish.1 = .ok ()) :
    ∃ v, Prunes SurplusParen [] [] (sourceKinds options.strictness source) v ∧
      Bracket.paren.Balanced v := by
  obtain ⟨w, hw, haccounts⟩ := accounts_of_finish hcompile hstatus hfinish
  obtain ⟨v, hv, heven⟩ := haccounts.parens [.eof]
  refine ⟨v ++ [.eof], ?_, Bracket.balanced_of_height ((heven.append (.single rfl)) 0)⟩
  rw [hw]
  exact hv.append (.refl _)

/-- A function whose `return` has one parenthesis too many. -/
def surplusParenText : String := "define f() \x7b return (() \x7d\n"

theorem accepted_parens_surplus :
    ((new {}).compile surplusParenText).1 = .ok .ready ∧
      ((new {}).compile surplusParenText).2.finish.1 = .ok () ∧
      ∃ v, Prunes SurplusParen [] [] (sourceKinds .lenient surplusParenText) v ∧
        Bracket.paren.Balanced v := by
  have hcompile : ((new {}).compile surplusParenText).1 = .ok .ready := by decide +kernel
  have hfinish : ((new {}).compile surplusParenText).2.finish.1 = .ok () := by decide +kernel
  exact ⟨hcompile, hfinish, accepted_parens {} surplusParenText hcompile nofun hfinish⟩

/-- The parentheses of an accepted text need not be balanced. -/
theorem unbalanced_parens_accepted :
    ((new {}).compile surplusParenText).1 = .ok .ready ∧
      ((new {}).compile surplusParenText).2.finish.1 = .ok () ∧
      ¬ Bracket.paren.Balanced (sourceKinds .lenient surplusParenText) := by
  refine ⟨by decide +kernel, by decide +kernel, fun h => ?_⟩
  have htotal := h.total
  revert htotal
  decide +kernel

/-- **The braces of an accepted text are in order**: every one has its partner, except for a closing
brace between the header of a body and an `else`. -/
theorem accepted_braces (options : Options) (source : String) {status : Status}
    (hcompile : ((new options).compile source).1 = .ok status) (hstatus : status ≠ .quit)
    (hfinish : ((new options).compile source).2.finish.1 = .ok ()) :
    ∃ v, Prunes StrayBrace [] [] (sourceKinds options.strictness source) v ∧
      Bracket.brace.Balanced v := by
  obtain ⟨w, hw, haccounts⟩ := accounts_of_finish hcompile hstatus hfinish
  obtain ⟨v, hv, hheight⟩ := haccounts.braces
  refine ⟨v ++ [.eof], ?_, Bracket.balanced_of_height ?_⟩
  · rw [hw]
    exact hv.append (.refl _)
  · rw [Bracket.height_append, hheight]
    rfl

/-- A brace that closes nothing, where the body of an `if` is awaited. -/
def strayBraceText : String := "if (1) \x7d else x\n"

theorem accepted_braces_stray :
    ((new {}).compile strayBraceText).1 = .ok .ready ∧
      ((new {}).compile strayBraceText).2.finish.1 = .ok () ∧
      ∃ v, Prunes StrayBrace [] [] (sourceKinds .lenient strayBraceText) v ∧
        Bracket.brace.Balanced v := by
  have hcompile : ((new {}).compile strayBraceText).1 = .ok .ready := by decide +kernel
  have hfinish : ((new {}).compile strayBraceText).2.finish.1 = .ok () := by decide +kernel
  exact ⟨hcompile, hfinish, accepted_braces {} strayBraceText hcompile nofun hfinish⟩

/-- The braces of an accepted text need not be balanced. -/
theorem unbalanced_braces_accepted :
    ((new {}).compile strayBraceText).1 = .ok .ready ∧
      ((new {}).compile strayBraceText).2.finish.1 = .ok () ∧
      ¬ Bracket.brace.Balanced (sourceKinds .lenient strayBraceText) := by
  refine ⟨by decide +kernel, by decide +kernel, fun h => ?_⟩
  have htotal := h.total
  revert htotal
  decide +kernel

end Session

end DeskCalc
