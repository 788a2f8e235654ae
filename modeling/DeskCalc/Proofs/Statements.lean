import DeskCalc.Proofs.Definitions
import DeskCalc.Statement

/-!
# Statements

What an item does is a sequence of deeds, each of which reads some tokens: `Deed B p v q`. The
statements that are no body are `Made`; besides them the brace of a body is read, a body without a
brace is compiled and ended, and a definition is begun. What is to hold after every item needs to be
shown of the deeds alone.

Where a trail is given every deed makes the `weight` of the pass smaller: it moves past a token,
closes a block, or ends an `if` that waited for its `else` (`Moved`). A statement that begins with no
such `if` leaves one only where it has closed a block, so that the body of an unbraced loop or branch
can be ended right behind it.
-/

namespace DeskCalc

variable {B : Option Trail} {p q r s : Pass} {v w : List Token} {b : Trail}

/-- The words and line feeds that can stand where a body is awaited, and are no part of it. -/
def Token.Kind.isBeforeBody : Token.Kind → Bool
  | .newline | .keyword .autoDecl | .keyword .elseBranch => true
  | _ => false

theorem Token.Kind.isBeforeBody_eq_false {k : Token.Kind} (hnewline : k ≠ .newline)
    (hauto : k ≠ .keyword .autoDecl) (helse : k ≠ .keyword .elseBranch) :
    k.isBeforeBody = false := by
  unfold isBeforeBody
  split <;> simp_all

/-- The flags of a pass do not count between statements. -/
theorem Pass.Poised.flags (h : p.Poised B) (auto quitting : Bool) :
    Pass.Poised B { p with autoAllowed := auto, quitting := quitting } := by
  obtain ⟨f, hf⟩ := h.inOrder.function
  refine ⟨h.inOrder.congr rfl rfl hf, fun b hb => ?_⟩
  obtain ⟨⟨g, hg⟩, hbal⟩ := h.steady b hb
  exact ⟨⟨g, hg.congr rfl rfl { hg.writing with } rfl⟩, { hbal with }⟩

/-- From `p` to `q` the tokens `v` were read, and whether `auto` may follow may have changed. -/
def Pass.Onward (p : Pass) (v : List Token) (q : Pass) : Prop :=
  ∃ auto, q.From { p with autoAllowed := auto } v

theorem Pass.Onward.trans (h : p.Onward v q) (h' : q.Onward w r) : p.Onward (v ++ w) r := by
  obtain ⟨a, ha⟩ := h
  obtain ⟨b, hb⟩ := h'
  have ha' : Pass.From { q with autoAllowed := b } { p with autoAllowed := b } v :=
    { ha with autoAllowed := rfl }
  exact ⟨b, ha'.trans hb⟩

theorem Pass.Onward.rest (h : p.Onward v q) : p.rest = v ++ q.rest := by
  obtain ⟨a, ha⟩ := h
  exact ha.rest

theorem Pass.Onward.strictness (h : p.Onward v q) : q.strictness = p.strictness := by
  obtain ⟨a, ha⟩ := h
  exact ha.strictness

/-! ## What statements do -/

/-- Bodies without a brace ended. -/
structure Ended (B : Option Trail) (p : Pass) (v : List Token) (q : Pass) : Prop where
  arrives : q.Arrives B p v q.blocks
  closed : Compile.Closed B p.strictness p.blocks false v q.blocks

/-- The part of a statement before its delimiter was read. -/
inductive Headed (B : Option Trail) (p : Pass) : List Token → Pass → Prop
  | stays {v : List Token} {q : Pass} (hk : p.token.kind.isBeforeBody = false) (hne : v ≠ [])
      (hv : Phrase p.strictness v) (hq : q.Arrives B p v p.blocks) : Headed B p v q
  | opens {v : List Token} {b : Block} {q : Pass} (hk : p.token.kind.isBeforeBody = false)
      (hv : Heading p.strictness (kindsOf v)) (hb : b.Awaits)
      (hq : q.Arrives B p v (p.blocks.push b)) : Headed B p v q
  | alternative {t : Token} {b : Block} {q : Pass} (ht : t.kind = .keyword .elseBranch)
      (hended : p.blocks.top.ifEnded = true) (hb : b.Awaits)
      (hq : q.Arrives B p [t] ((p.blocks.mark false).push b)) : Headed B p [t] q
  | closes {t : Token} {v : List Token} {q : Pass} (hk : p.token.kind.isBeforeBody = false)
      (hended : p.blocks.top.ifEnded = false) (ht : t.kind = .symbol .rightBrace)
      (hq : q.Arrives B p (t :: v) q.blocks)
      (hclosed : Compile.Closed B p.strictness p.blocks true v q.blocks) : Headed B p (t :: v) q

/-- Empty statements and line feeds. -/
def Blank (v : List Token) : Prop := ∀ t ∈ v, t.kind = .symbol .semicolon ∨ t.kind = .newline

theorem Blank.kinds (h : Blank v) : ∀ k ∈ kindsOf v, k = .symbol .semicolon := by
  intro k hk
  obtain ⟨t, ht, rfl, hne⟩ := mem_kindsOf hk
  exact (h t ht).resolve_right hne

theorem Blank.mild {mode : Strictness} (h : Blank v) : Mild mode (kindsOf v) := by
  refine ⟨.of_forall fun k hk => ?_, fun _ k hk => ?_⟩
  · rw [h.kinds k hk]
    rfl
  · rw [h.kinds k hk]
    rfl

/-- Behind a statement its delimiter has been skipped. Where POSIX is enforced no definition follows
a semicolon. -/
structure Pass.Past (q : Pass) : Prop where
  semicolon : q.token.kind ≠ .symbol .semicolon
  newline : q.token.kind ≠ .newline
  define : q.strictness = .strict → q.token.kind = .keyword .define →
    q.previous ≠ .symbol .semicolon

/-- A statement that is no body. -/
inductive Made (B : Option Trail) (p : Pass) : List Token → Pass → Prop
  | blank {v : List Token} {q : Pass} (auto : Bool)
      (hauto : auto = true → p.autoAllowed = true ∧ p.token.kind = .newline)
      (hne : v ≠ []) (hv : Blank v) (hq : q.Arrives B { p with autoAllowed := auto } v p.blocks) :
      Made B p v q
  | quit (hk : p.token.kind = .keyword .quit) (hp : p.Poised B) :
      Made B p [] { p with autoAllowed := false, quitting := true }
  | auto {t : Token} {v : List Token} {q : Pass} (hauto : p.autoAllowed = true)
      (ht : t.kind = .keyword .autoDecl) (hv : Mild p.strictness (kindsOf v))
      (hq : q.Arrives B { p with autoAllowed := false } (t :: v) p.blocks) : Made B p (t :: v) q
  | plain {v w : List Token} {r q : Pass} (hr : Headed B { p with autoAllowed := false } v r)
      (hend : r.blocks = p.blocks → Compile.isDelimited r = true) (hw : Blank w)
      (hq : q.Arrives B r w r.blocks) (hpast : q.Past) : Made B p (v ++ w) q
  | settle {q : Pass} (hk : p.token.kind.isBeforeBody = false)
      (hended : p.blocks.top.ifEnded = true)
      (hq : q.Arrives B { p with autoAllowed := false } [] (p.blocks.mark false))
      (hbrace : 1 < p.blocks.depth → p.blocks.top.brace = true) : Made B p [] q
  | settleEnd {v : List Token} {r q : Pass} (hk : p.token.kind.isBeforeBody = false)
      (hended : p.blocks.top.ifEnded = true)
      (hr : r.Arrives B { p with autoAllowed := false } [] (p.blocks.mark false))
      (hq : Ended B r v q) : Made B p v q
  | brace {t : Token} {q : Pass} (hk : p.token.kind.isBeforeBody = false)
      (ht : t.kind = .symbol .leftBrace)
      (hq : q.Arrives B { p with autoAllowed := false } [t]
        (p.blocks.push (Block.braceIn p.blocks.top))) : Made B p [t] q

/-- A body without a brace begins. -/
structure Begins (B : Option Trail) (p s : Pass) : Prop where
  token : p.token.kind.isBeforeBody = false
  awaited : p.blocks.top.awaited = true
  brace : p.blocks.top.brace = false
  func : p.blocks.top.funcBody = false
  ended : p.blocks.top.ifEnded = false
  arrives : s.Arrives B { p with autoAllowed := false } []
    (p.blocks.modifyTop ({ · with awaited := false }))

/-- What the compiler does between two items or inside one. -/
inductive Deed (B : Option Trail) (p : Pass) : List Token → Pass → Prop
  | inner {v : List Token} {q : Pass} (h : Made B p v q)
      (hawaited : p.blocks.top.awaited = true → p.token.kind.isBeforeBody = true ∨
        p.blocks.top.ifEnded = true ∨ p.blocks.top.brace = true) : Deed B p v q
  | enter {t : Token} {q : Pass} (ht : t.kind = .symbol .leftBrace)
      (hawaited : p.blocks.top.awaited = true)
      (hq : q.Arrives B { p with autoAllowed := p.blocks.top.funcBody } [t]
        (p.blocks.modifyTop ({ · with brace := true, awaited := false }))) : Deed B p [t] q
  | bare {v : List Token} {s q : Pass} (hs : Begins B p s) (h : Made B s v q)
      (hleave : q.quitting = true ∨ q.blocks.top.awaited = true ∨
        q.blocks.depth < s.blocks.depth) : Deed B p v q
  | ends {v w : List Token} {s r q : Pass} (hs : Begins B p s) (h : Made B s v r)
      (hgo : r.quitting = false) (hawaited : r.blocks.top.awaited = false) (hq : Ended B r w q) :
      Deed B p (v ++ w) q
  | define {t : Token} {v : List Token} {b : Block} {r q : Pass}
      (hbrace : p.blocks.hasBrace = false) (hr : r.Arrives B p [] {})
      (ht : t.kind = .keyword .define) (hv : Mild p.strictness (kindsOf v)) (hb : b.Awaits)
      (hfunc : b.funcBody = true) (hq : q.Arrives B r (t :: v) (r.blocks.push b))
      (hopen : p.strictness = .strict → q.token.kind = .symbol .leftBrace) : Deed B p (t :: v) q

/-- One deed after the other, until a `quit`. -/
inductive Deeds (B : Option Trail) (p : Pass) : List Token → Pass → Prop
  | single {v : List Token} {q : Pass} (h : Deed B p v q) : Deeds B p v q
  | next {v w : List Token} {q r : Pass} (h : Deeds B p v q) (hgo : q.quitting = p.quitting)
      (h' : Made B q w r) (hawaited : q.blocks.top.awaited = false) : Deeds B p (v ++ w) r

/-! ## What is read -/

theorem Headed.arrives (h : Headed B p v q) : q.Arrives B p v q.blocks := by
  cases h with
  | stays _ _ _ hq => exact { hq with blocks := rfl }
  | opens _ _ _ hq => exact { hq with blocks := rfl }
  | alternative _ _ _ hq => exact { hq with blocks := rfl }
  | closes _ _ _ hq => exact hq

theorem Made.poised (h : Made B p v q) : q.Poised B := by
  cases h with
  | blank _ _ _ _ hq => exact hq.toPoised
  | quit _ hp => exact hp.flags _ _
  | auto _ _ _ hq => exact hq.toPoised
  | plain _ _ _ hq => exact hq.toPoised
  | settle _ _ hq => exact hq.toPoised
  | settleEnd _ _ _ hq => exact hq.arrives.toPoised
  | brace _ _ hq => exact hq.toPoised

theorem Made.onward (h : Made B p v q) : p.Onward v q := by
  cases h with
  | blank auto _ _ _ hq => exact ⟨auto, hq.toFrom⟩
  | quit => exact ⟨false, { Pass.From.refl _ with }⟩
  | auto _ _ _ hq => exact ⟨false, hq.toFrom⟩
  | plain hr _ _ hq => exact ⟨false, hr.arrives.toFrom.trans hq.toFrom⟩
  | settle _ _ hq => exact ⟨false, hq.toFrom⟩
  | settleEnd _ _ hr hq => exact ⟨false, by simpa using hr.toFrom.trans hq.arrives.toFrom⟩
  | brace _ _ hq => exact ⟨false, hq.toFrom⟩

theorem Begins.onward (h : Begins B p s) : p.Onward [] s := ⟨false, h.arrives.toFrom⟩

/-- Where no body is awaited, a statement is a deed. -/
theorem Made.deed (h : Made B p v q) (hp : p.blocks.top.awaited = false) :
    Deed B p v q := .inner h fun hawaited => by rw [hp] at hawaited; cases hawaited

theorem Deed.poised (h : Deed B p v q) : q.Poised B := by
  cases h with
  | inner h => exact h.poised
  | enter _ _ hq => exact hq.toPoised
  | bare _ h => exact h.poised
  | ends _ _ _ _ hq => exact hq.arrives.toPoised
  | define _ _ _ _ _ _ hq => exact hq.toPoised

theorem Deed.onward (h : Deed B p v q) : p.Onward v q := by
  cases h with
  | inner h => exact h.onward
  | enter _ _ hq => exact ⟨_, hq.toFrom⟩
  | bare hs h => exact hs.onward.trans h.onward
  | ends hs h _ _ hq => exact (hs.onward.trans h.onward).trans ⟨_, hq.arrives.toFrom⟩
  | define _ hr _ _ _ _ hq => exact ⟨_, hr.toFrom.trans hq.toFrom⟩

theorem Deeds.poised (h : Deeds B p v q) : q.Poised B := by
  cases h with
  | single h => exact h.poised
  | next _ _ h _ => exact h.poised

theorem Deeds.onward (h : Deeds B p v q) : p.Onward v q := by
  induction h with
  | single h => exact h.onward
  | next _ _ h' _ ih => exact ih.trans h'.onward

theorem Made.quitting (h : Made B p v q) :
    q.quitting = p.quitting ∨ q.quitting = true ∧ q.token.kind = .keyword .quit := by
  cases h with
  | blank _ _ _ _ hq => exact .inl hq.quitting
  | quit hk => exact .inr ⟨rfl, hk⟩
  | auto _ _ _ hq => exact .inl hq.quitting
  | plain hr _ _ hq => exact .inl (hq.quitting.trans hr.arrives.quitting)
  | settle _ _ hq => exact .inl hq.quitting
  | settleEnd _ _ hr hq => exact .inl (hq.arrives.quitting.trans hr.quitting)
  | brace _ _ hq => exact .inl hq.quitting

/-- Whether `auto` may follow is forgotten at the first statement. -/
theorem Made.autoAllowed (h : Made B p v q) (hauto : q.autoAllowed = true) :
    p.autoAllowed = true ∧ p.token.kind = .newline ∧ q.blocks = p.blocks := by
  have hlate {r : Pass} {u : List Token} {t : BlockStack}
      (hr : r.Arrives B { p with autoAllowed := false } u t) : r.autoAllowed = false :=
    hr.autoAllowed
  cases h with
  | blank auto hkept _ _ hq => 
    obtain ⟨hkept, hk⟩ := hkept (hq.autoAllowed.symm.trans hauto)
    exact ⟨hkept, hk, hq.blocks⟩
  | quit => cases hauto
  | auto _ _ _ hq => cases hauto.symm.trans (hlate hq)
  | plain hr _ _ hq => cases hauto.symm.trans (hq.autoAllowed.trans (hlate hr.arrives))
  | settle _ _ hq => cases hauto.symm.trans (hlate hq)
  | settleEnd _ _ hr hq => cases hauto.symm.trans (hq.arrives.autoAllowed.trans (hlate hr))
  | brace _ _ hq => cases hauto.symm.trans (hlate hq)

/-- Only at a `quit` the chunk is to end. -/
theorem Deed.quitting (h : Deed B p v q) :
    q.quitting = p.quitting ∨ q.quitting = true ∧ q.token.kind = .keyword .quit := by
  cases h with
  | inner h => exact h.quitting
  | enter _ _ hq => exact .inl hq.quitting
  | bare hs h => exact hs.arrives.quitting ▸ h.quitting
  | ends hs h hgo _ hq =>
    rcases h.quitting with hquit | ⟨hquit, -⟩
    · exact .inl (hq.arrives.quitting.trans (hquit.trans hs.arrives.quitting))
    · cases hgo.symm.trans hquit
  | define _ hr _ _ _ _ hq => exact .inl (hq.quitting.trans hr.quitting)

/-- What every deed keeps holds behind all of them. -/
theorem Deeds.induct {I : List Token → Pass → Prop} {u : List Token} (h : Deeds B p v q)
    (hgo : p.quitting = false) (hI : I u p)
    (hdeed : ∀ u v q r, I u q → q.quitting = false → Deed B q v r → I (u ++ v) r) :
    I (u ++ v) q := by
  induction h with
  | single h => exact hdeed _ _ _ _ hI hgo h
  | next _ hsame h' hawaited ih =>
    rw [← List.append_assoc]
    exact hdeed _ _ _ _ ih (hsame.trans hgo) (h'.deed hawaited)

/-! ## What is left to do -/

/-- What is left to do: tokens count more than the blocks they can open. -/
def Pass.weight (p : Pass) : Nat :=
  4 * p.upcoming.length + 2 * p.blocks.depth + p.blocks.top.ifEnded.toNat

/-- From `p` to `q` something was done. -/
structure Moved (p q : Pass) : Prop where
  weight : q.quitting = true ∨ q.weight < p.weight
  ended : q.blocks.top.ifEnded = true →
    p.blocks.top.ifEnded = true ∨ q.blocks.depth < p.blocks.depth

/-- Tokens were read, and a block may have been opened. -/
theorem Moved.of_onward (h : p.Onward v q) (hv : v ≠ [])
    (hdepth : q.blocks.depth ≤ p.blocks.depth + 1)
    (hended : q.blocks.top.ifEnded = true → q.blocks.depth ≤ p.blocks.depth ∧
      (p.blocks.top.ifEnded = true ∨ q.blocks.depth < p.blocks.depth)) : Moved p q := by
  obtain ⟨a, ha⟩ := h
  have hlength : v.length + q.upcoming.length = p.upcoming.length := ha.length_eq
  have hpos := List.length_pos_iff.2 hv
  refine ⟨.inr ?_, fun hmark => (hended hmark).2⟩
  rw [Pass.weight, Pass.weight]
  cases hmark : q.blocks.top.ifEnded with
  | false =>
    rw [Bool.toNat_false]
    omega
  | true =>
    have := (hended hmark).1
    rw [Bool.toNat_true]
    omega

/-- Reading on changes nothing about it. -/
theorem Moved.onward (h : Moved p q) (hr : r.Arrives B q w q.blocks) : Moved p r := by
  have hlength := hr.toFrom.length_eq
  constructor
  · rw [hr.quitting]
    refine h.weight.imp_right fun hw => ?_
    rw [Pass.weight, Pass.weight] at hw ⊢
    rw [hr.blocks]
    omega
  · rw [hr.blocks]
    exact h.ended

theorem Compile.Closed.moved (hb : b ∈ B) {mode : Strictness} {brace : Bool} {u : List Token}
    (h : Compile.Closed B mode p.blocks brace v q.blocks) (hq : p.Onward (u ++ v) q) : Moved p q := by
  obtain ⟨left, hs, -⟩ := h.shut
  have hle := hs.depth
  have hmark := Bool.toNat_le q.blocks.top.ifEnded
  by_cases hlt : q.blocks.depth < p.blocks.depth
  · obtain ⟨a, ha⟩ := hq
    have hlength : (u ++ v).length + q.upcoming.length = p.upcoming.length := ha.length_eq
    refine ⟨.inr ?_, fun _ => .inr hlt⟩
    rw [Pass.weight, Pass.weight]
    omega
  · -- only the body of an `else` can take the place of the one that was closed
    have hv := (h.less b hb).resolve_left hlt
    refine .of_onward hq (fun hnil => ?_) (by omega) fun hended => ?_
    · rw [List.append_eq_nil_iff] at hnil
      rw [hnil.2] at hv
      exact hv rfl
    · rcases hs.found with ⟨hnone, -⟩ | ⟨-, -, hawaits, -⟩
      · exact absurd hnone hv
      · cases hawaits.ifEnded.symm.trans hended

theorem Ended.moved (hb : b ∈ B) (h : Ended B p v q) : Moved p q :=
  h.closed.moved hb (u := []) ⟨_, h.arrives.toFrom⟩

theorem Header.ne_nil {w : List Token.Kind} (h : Header w) : w ≠ [] := by
  cases h <;> simp

theorem Headed.moved (hb : b ∈ B) (h : Headed B p v q) : Moved p q := by
  have honward : p.Onward v q := ⟨_, h.arrives.toFrom⟩
  cases h with
  | stays _ hne _ hq =>
    refine .of_onward honward hne (by rw [hq.blocks]; omega) fun hended => ?_
    rw [hq.blocks] at hended ⊢
    exact ⟨Nat.le_refl _, .inl hended⟩
  | opens _ hv hawaits hq =>
    refine .of_onward honward ?_ (by rw [hq.blocks, BlockStack.depth_push]) fun hended => ?_
    · rintro rfl
      exact hv.header.ne_nil rfl
    · rw [hq.blocks] at hended
      cases hawaits.ifEnded.symm.trans hended
  | alternative _ _ hawaits hq =>
    refine .of_onward honward (by simp) ?_ fun hended => ?_
    · rw [hq.blocks, BlockStack.depth_push]
      exact Nat.le_refl _
    · rw [hq.blocks] at hended
      cases hawaits.ifEnded.symm.trans hended
  | closes _ _ _ _ hclosed => exact hclosed.moved hb (u := [_]) honward

theorem Made.moved (hb : b ∈ B) (h : Made B p v q) : Moved p q := by
  have honward := h.onward
  -- a step that leaves the blocks as they are
  have hstays {u : List Token} {r : Pass} (hr : p.Onward u r) (hne : u ≠ [])
      (hblocks : r.blocks = p.blocks) : Moved p r := by
    refine .of_onward hr hne (by rw [hblocks]; omega) fun hended => ?_
    rw [hblocks] at hended ⊢
    exact ⟨Nat.le_refl _, .inl hended⟩
  have hsettles {r : Pass} (hended : p.blocks.top.ifEnded = true)
      (hr : r.Arrives B { p with autoAllowed := false } [] (p.blocks.mark false)) :
      r.weight < p.weight := by
    have hlength : 0 + r.upcoming.length = p.upcoming.length := hr.toFrom.length_eq
    rw [Pass.weight, Pass.weight, hr.blocks, hended, BlockStack.depth_modifyTop]
    show 4 * r.upcoming.length + 2 * p.blocks.depth + 0 < _
    rw [Bool.toNat_true]
    omega
  cases h with
  | blank _ _ hne _ hq => exact hstays honward hne hq.blocks
  | quit => exact ⟨.inl rfl, .inl⟩
  | auto _ _ _ hq => exact hstays honward (by simp) hq.blocks
  | plain hr _ _ hq =>
    have hmoved := hr.moved hb
    exact Moved.onward ⟨hmoved.weight, hmoved.ended⟩ hq
  | settle _ hended hq => exact ⟨.inr (hsettles hended hq), fun _ => .inl hended⟩
  | settleEnd _ hended hr hq =>
    refine ⟨(hq.moved hb).weight.imp_right fun hlt => ?_, fun _ => .inl hended⟩
    exact Nat.lt_trans hlt (hsettles hended hr)
  | brace _ _ hq =>
    refine .of_onward honward (by simp) (by rw [hq.blocks, BlockStack.depth_push]) fun hended => ?_
    rw [hq.blocks] at hended
    cases hended

theorem Deed.weight (hb : b ∈ B) (h : Deed B p v q) : q.quitting = true ∨ q.weight < p.weight := by
  have hbegins {s : Pass} (hs : Begins B p s) : s.weight = p.weight := by
    have hlength : 0 + s.upcoming.length = p.upcoming.length := hs.arrives.toFrom.length_eq
    rw [Pass.weight, Pass.weight, hs.arrives.blocks, ← hlength, Nat.zero_add]
    rfl
  cases h with
  | inner h => exact (h.moved hb).weight
  | enter _ _ hq =>
    have hlength : 1 + q.upcoming.length = p.upcoming.length := hq.toFrom.length_eq
    refine .inr ?_
    rw [Pass.weight, Pass.weight, hq.blocks, BlockStack.depth_modifyTop]
    show 4 * q.upcoming.length + 2 * p.blocks.depth + p.blocks.top.ifEnded.toNat < _
    omega
  | bare hs h => exact hbegins hs ▸ (h.moved hb).weight
  | ends hs h hgo _ hq =>
    have hlt := (h.moved hb).weight.resolve_left (by simp [hgo])
    rw [hbegins hs] at hlt
    exact (hq.moved hb).weight.imp_right (Nat.lt_trans · hlt)
  | @define _ v _ r _ _ hr _ _ hawaits _ hq _ =>
    have hlength : 0 + r.upcoming.length = p.upcoming.length := hr.toFrom.length_eq
    have hread : (v.length + 1) + q.upcoming.length = r.upcoming.length := hq.toFrom.length_eq
    have hpos : 1 ≤ p.blocks.depth := Nat.le_add_left 1 _
    refine .inr ?_
    rw [Pass.weight, Pass.weight, hq.blocks, hr.blocks, BlockStack.depth_push]
    show 4 * q.upcoming.length + 2 * (1 + 1) + _ < _
    rw [show ((({} : BlockStack).push _).top.ifEnded) = false from hawaits.ifEnded, Bool.toNat_false]
    omega

/-- **Every item does something.** -/
theorem Deeds.weight (hb : b ∈ B) (h : Deeds B p v q) : q.quitting = true ∨ q.weight < p.weight := by
  induction h with
  | single h => exact h.weight hb
  | next _ _ h' hawaited ih =>
    rcases ih with hquit | hlt
    · rcases h'.quitting with hsame | ⟨htrue, -⟩
      · exact .inl (hsame.trans hquit)
      · exact .inl htrue
    · exact ((h'.deed hawaited).weight hb).imp_right (Nat.lt_trans · hlt)

namespace Compile

variable {f : Function} {Q : Unit → Pass → Prop}

/-! ## Plain statements -/

section

variable (h : p.Poised B)
include h

theorem statementHead_holds {k : Token.Kind} (hk : p.token.kind = k)
    (hbefore : k ≠ .keyword .elseBranch → k.isBeforeBody = false ∧ p.blocks.top.ifEnded = false)
    (hQ : ∀ v q, Headed B p v q → Q () q) : Ensures (statementHead k) p Q (Declines B) := by
  obtain ⟨f, hf⟩ := h.midway
  subst hk
  have hstays (hne : p.token.kind ≠ .keyword .elseBranch) (v : List Token) (q : Pass) (hv : v ≠ [])
      (hphrase : Phrase p.strictness v) (hq : q.Arrives B p v p.blocks) : Q () q :=
    hQ v q (.stays (hbefore hne).1 hv hphrase hq)
  have hopens (hne : p.token.kind ≠ .keyword .elseBranch) (v : List Token) (b : Block) (q : Pass)
      (hv : Heading p.strictness (kindsOf v)) (hb : b.Awaits)
      (hq : q.Arrives B p v (p.blocks.push b)) : Q () q := hQ v q (.opens (hbefore hne).1 hv hb hq)
  rw [statementHead.eq_def, ensures_ite]
  split
  · next hstarts =>
    refine expression_holds hf rfl (by simp) ?_
    rintro v e q g _ he rfl - hq
    refine hstays ?_ v q he.ne_nil (.mild he.mild) (arrives_of_midway h hq)
    intro helse
    rw [helse] at hstarts
    cases hstarts
  · have hpop (x : Entry) (hx : x.isScalar = true) :
        Opcode.printPop.step [] [x] = some [] ∧ Opcode.printStream.step [] [x] = some [] := by
      simp [Opcode.step, Opcode.effect, Entry.takeScalars, hx]
    split
    · next hk =>
      rw [ensures_bind]
      refine string_holds hf hk fun v q₁ g₁ hv _ h₁ => ?_
      refine emit_holds h₁ rfl rfl fun q g _ hq => ?_
      refine hstays (by simp [hk]) v q ?_ (.mild ?_) (arrives_of_midway h hq)
      · rintro rfl
        cases hv
      · rw [hv]
        exact .single rfl rfl
    · next hk =>
      obtain ⟨hword, hended⟩ := hbefore (by simp [hk])
      refine endBody_holds h (fun _ _ => hended) (fun _ => hk) fun w v q hw hq hclosed => ?_
      obtain ⟨t, rfl, ht⟩ := List.map_eq_singleton_iff.1 hw
      exact hQ _ q (.closes hword hended ht hq hclosed)
    · next hk =>
      exact elseBranch_holds h hk fun hended t b q ht hb hq => hQ _ q (.alternative ht hended hb hq)
    · next hk =>
      rw [breakLoop, ensures_bind, ensures_get]
      refine leaveLoop_holds h hk (fun l hl => .inr (.inl ?_)) fun t q ht hq => ?_
      · obtain ⟨x, hx, rfl⟩ := Option.map_eq_some_iff.1 hl
        exact List.mem_map_of_mem (List.mem_of_find?_eq_some hx)
      · exact hstays (by simp [hk]) _ q (by simp) (.mild (.token ht rfl rfl)) hq
    · next hk =>
      rw [continueLoop, ensures_bind, ensures_get]
      refine leaveLoop_holds h hk (fun l hl => .inr (.inr ?_)) fun t q ht hq => ?_
      · exact List.mem_of_mem_head? hl
      · exact hstays (by simp [hk]) _ q (by simp) (.mild (.token ht rfl rfl)) hq
    · next hk =>
      have hended := (hbefore (by simp [hk])).2
      exact forHeader_holds h (fun _ _ => hended) hk (hopens (by simp [hk]))
    · next hk =>
      rw [ensures_bind]
      refine emit_holds hf rfl rfl fun q₁ g₁ _ h₁ => ?_
      rw [← hf.toFrom.token_eq h₁.toFrom] at hk
      refine advance_holds_kind h₁ hk (by simp) fun t q ht hq => ?_
      rw [hf.toFrom.token_eq h₁.toFrom] at hk
      exact hstays (by simp [hk]) _ q (by simp) (.mild (.token ht rfl rfl)) (arrives_of_midway h hq)
    · next hk =>
      have hended := (hbefore (by simp [hk])).2
      exact ifHeader_holds h (fun _ _ => hended) hk (hopens (by simp [hk]))
    · next hk =>
      exact printItems_holds h hk rfl rfl (fun x hx => (hpop x hx).1) fun v q hne hv hq =>
        hstays (by simp [hk]) v q hne (.mild hv) hq
    · next hk =>
      exact printItems_holds h hk rfl rfl (fun x hx => (hpop x hx).2) fun v q hne hv hq =>
        hstays (by simp [hk]) v q hne (.mild hv) hq
    · next hk =>
      exact returnValue_holds h hk fun t v q ht hv hq =>
        hstays (by simp [hk]) _ q (by simp) (.returns ht hv) hq
    · next hk =>
      have hended := (hbefore (by simp [hk])).2
      exact whileHeader_holds h (fun _ _ => hended) hk (hopens (by simp [hk]))
    · exact unexpected_holds hf

/-- Skipping empty statements, and maybe line feeds. -/
theorem skipBlank_holds {kinds : Token.Kind → Bool} (heof : kinds .eof = false)
    (hkinds : ∀ k, kinds k = true → k = .symbol .semicolon ∨ k = .newline)
    (hQ : ∀ v q, Blank v → (kinds p.token.kind = true → v ≠ []) → kinds q.token.kind = false →
      q.Arrives B p v p.blocks → Q () q) : Ensures (skipWhile kinds) p Q (Declines B) := by
  obtain ⟨f, hf⟩ := h.midway
  refine skipWhile_holds hf heof fun v q hv hk hq => ?_
  refine hQ v q (fun t ht => hkinds _ (hv t ht)) ?_ hk (arrives_of_midway h hq)
  rintro hp rfl
  rw [← hf.toFrom.token_eq hq.toFrom, hk] at hp
  cases hp

theorem statementTail_holds (hQ : ∀ v q, Blank v → q.Past → q.Arrives B p v p.blocks → Q () q) :
    Ensures statementTail p Q (Declines B) := by
  rw [statementTail, ensures_bind]
  refine skipBlank_holds h rfl (by simp) fun v q hv _ hk hq => ?_
  simp only [Bool.or_eq_false_iff, beq_eq_false_iff_ne] at hk
  simp only [ensures_bind, ensures_get, ensures_kind, ensures_ite, ensures_here, ensures_pure]
  split
  · obtain ⟨g, hg⟩ := hq.midway
    refine report_holds hg fun hmode r hr => ?_
    have harrives := hq.trans (arrives_of_midway hq.toPoised hr)
    rw [List.append_nil, hq.blocks] at harrives
    rw [← hg.toFrom.token_eq hr.toFrom] at hk
    refine hQ v r hv ⟨hk.1, hk.2, fun hstrict => ?_⟩ harrives
    exact absurd (hr.strictness ▸ hstrict) hmode
  · next hno => exact hQ v q hv ⟨hk.1, hk.2, fun _ hd hs => hno ⟨hs, hd⟩⟩ hq

/-- **A statement that is not the start of a body.** -/
theorem plainStatement_holds (hauto : p.autoAllowed = false)
    (hbefore : p.token.kind ≠ .keyword .elseBranch →
      p.token.kind.isBeforeBody = false ∧ p.blocks.top.ifEnded = false)
    (hQ : ∀ v q, Made B p v q → Q () q) : Ensures plainStatement p Q (Declines B) := by
  have hself : { p with autoAllowed := false } = p := by
    rw [← hauto]
  rw [plainStatement, ensures_bind, ensures_kind]
  unfold plainFrom
  split
  · next hk =>
    refine skipBlank_holds h rfl (by simp) fun v q hv hne _ hq => ?_
    exact hQ v q (.blank false (by simp) (hne (by simp [hk])) hv (hself.symm ▸ hq))
  · next hk =>
    rw [ensures_modify]
    have hquit : Made B p [] { p with autoAllowed := false, quitting := true } := .quit hk h
    have heq : { p with autoAllowed := false, quitting := true } = { p with quitting := true } := by
      rw [← hauto]
    exact hQ _ _ (heq ▸ hquit)
  · simp only [ensures_bind, ensures_get]
    refine statementHead_holds h rfl hbefore fun v q hq => ?_
    have harrives := hq.arrives
    simp only [plainEnd, ensures_bind, ensures_get, ensures_atDelimiter, ensures_ite]
    split
    · obtain ⟨g, hg⟩ := harrives.midway
      exact unexpected_holds hg
    · next hend =>
      refine statementTail_holds harrives.toPoised fun w r hw hpast hr => ?_
      refine hQ _ r (.plain (hself.symm ▸ hq) (fun hb => ?_) hw hr hpast)
      simpa [hb] using hend

/-- **An `if` gets no `else`**, and with it ends the body around it. -/
theorem settleIf_holds (hauto : p.autoAllowed = false) (hk : p.token.kind.isBeforeBody = false)
    (hended : p.blocks.top.ifEnded = true) (hQ : ∀ v q, Made B p v q → Q () q) :
    Ensures settleIf p Q (Declines B) := by
  have hself : { p with autoAllowed := false } = p := by
    rw [← hauto]
  obtain ⟨f, hf⟩ := h.midway
  rw [settleIf, ensures_bind]
  refine endIf_holds hf fun q g _ hq => ?_
  have harrives : q.Arrives B p [] (p.blocks.mark false) :=
    hq.arrives (fun b hb => (balanced_marked (h.balanced b hb) hended).endIf) rfl
  have hmark : ∀ b ∈ B, q.blocks.top.ifEnded = false := fun _ _ => by
    rw [harrives.blocks]
    rfl
  simp only [ensures_bind, ensures_get, ensures_ite, ensures_pure]
  split
  · refine endBody_holds harrives.toPoised hmark (by simp) fun w v r hw hr hclosed => ?_
    obtain rfl : w = [] := List.map_eq_nil_iff.1 hw
    exact hQ v r (.settleEnd hk hended (hself.symm ▸ harrives) ⟨hr, hclosed⟩)
  · next hstop =>
    refine hQ [] q (.settle hk hended (hself.symm ▸ harrives) fun hdepth => ?_)
    rw [harrives.blocks] at hstop
    by_contra hbrace
    refine hstop ?_
    rw [Bool.and_eq_true, decide_eq_true_eq, Bool.not_eq_true']
    exact ⟨hdepth, eq_false_of_ne_true hbrace⟩

/-- A brace that is the body of nothing. -/
theorem openBrace_holds (hended : ∀ b ∈ B, p.blocks.top.ifEnded = false)
    (hk : p.token.kind = .symbol .leftBrace)
    (hQ : ∀ t q, t.kind = .symbol .leftBrace →
      q.Arrives B p [t] (p.blocks.push (Block.braceIn p.blocks.top)) → Q () q) :
    Ensures openBrace p (fun _ q => Ensures advance q Q (Declines B)) (Declines B) := by
  obtain ⟨f, hf⟩ := h.midway
  refine modifyBlocks_holds hf fun q₁ h₁ => ?_
  rw [← hf.toFrom.token_eq h₁.toFrom] at hk
  refine advance_holds_kind h₁ hk (by simp) fun t q ht hq => ?_
  refine hQ t q ht (hq.arrives (fun b hb => ?_) rfl)
  exact (h.balanced b hb).push (hended b hb) (Block.inside_braceIn _) rfl [] [] rfl rfl

/-- **A statement where no body is awaited.** -/
theorem innerStatement_holds (hQ : ∀ v q, Made B p v q → Q () q) :
    Ensures innerStatement p Q (Declines B) := by
  obtain ⟨f, hf⟩ := h.midway
  have hlate : Pass.Poised B { p with autoAllowed := false } := h.flags false p.quitting
  -- what is done where `auto` is too late
  have hforbid (v : List Token) (q : Pass) (hq : Made B { p with autoAllowed := false } v q) :
      Q () q := by
    refine hQ v q ?_
    cases hq with
    | blank auto hauto hne hv hq =>
      cases auto with
      | false => exact .blank false (by simp) hne hv hq
      | true => cases (hauto rfl).1
    | quit hk => exact .quit hk h
    | auto hauto => cases hauto
    | plain hr hend hw hq hpast => exact .plain hr hend hw hq hpast
    | settle hk hended hq hbrace => exact .settle hk hended hq hbrace
    | settleEnd hk hended hr hq => exact .settleEnd hk hended hr hq
    | brace hk ht hq => exact .brace hk ht hq
  rw [innerStatement, ensures_bind, ensures_kind]
  unfold innerFrom
  split
  · next hk =>
    refine advance_holds_kind hf hk (by simp) fun t q ht hq => ?_
    refine hQ _ q (.blank p.autoAllowed (fun h => ⟨h, hk⟩) (by simp) ?_ (arrives_of_midway h hq))
    exact List.forall_mem_singleton.2 (.inr ht)
  · next hk =>
    exact autoDecl_holds h hk fun t v q hauto ht hv hq => hQ _ q (.auto hauto ht hv hq)
  · next hk =>
    rw [ensures_bind, forbidAuto, ensures_modify]
    exact plainStatement_holds hlate rfl (fun hne => absurd hk hne) hforbid
  · next hnewline hauto helse =>
    have hk := Token.Kind.isBeforeBody_eq_false hnewline hauto helse
    simp only [ensures_bind, forbidAuto, ensures_modify, ensures_topBlock, ensures_ite]
    split
    · next hmark => exact settleIf_holds hlate rfl hk hmark hforbid
    · next hmark =>
      have hend : p.blocks.top.ifEnded = false := eq_false_of_ne_true hmark
      split
      · next hbrace =>
        exact openBrace_holds hlate (fun _ _ => hend) hbrace fun t q ht hq => hQ _ q (.brace hk ht hq)
      · exact plainStatement_holds hlate rfl (fun _ => ⟨hk, hend⟩) hforbid

/-! ## Bodies -/

/-- The innermost block changes in how far its body has come. -/
theorem setTop_holds {change : Block → Block}
    (hsame : { change p.blocks.top with
      brace := p.blocks.top.brace
      awaited := p.blocks.top.awaited } = p.blocks.top)
    (hbrace : p.blocks.top.brace = true → (change p.blocks.top).brace = true)
    (houter : ∀ b ∈ B, p.blocks.below = [] →
      change p.blocks.top = { ifEnded := (change p.blocks.top).ifEnded })
    (hQ : ∀ q, q.Arrives B p [] (p.blocks.modifyTop change) → Q () q) :
    Ensures (modifyBlocks (·.modifyTop change)) p Q (Declines B) := by
  obtain ⟨f, hf⟩ := h.midway
  refine modifyBlocks_holds hf fun q hq => hQ q (hq.arrives (fun b hb => ?_) rfl)
  exact (h.balanced b hb).setTop hsame hbrace (houter b hb)

/-- The body of the innermost block begins. -/
theorem begin_holds
    (hQ : ∀ q, q.Arrives B p [] (p.blocks.modifyTop ({ · with awaited := false })) → Q () q) :
    Ensures (modifyBlocks fun s => s.modifyTop ({ · with awaited := false })) p Q (Declines B) := by
  refine setTop_holds h rfl id (fun b hb hnil => ?_) hQ
  rw [show p.blocks.top = _ from (h.balanced b hb).top_eq hnil]

end

/-- Behind the brace of a function `auto` may stand. -/
theorem functionBody_holds (h : Deeds B p v q) (hgo : q.quitting = p.quitting)
    (hq : q.blocks.top.awaited = false) (hQ : ∀ v q, Deeds B p v q → Q () q) :
    Ensures (do
      if ← isAt (.keyword .autoDecl) then autoDecl else pure ()
      if ← isAt .newline then advance else pure ()) q Q (Declines B) := by
  have hnewline (w : List Token) (r : Pass) (hr : Deeds B p w r) (hgo : r.quitting = p.quitting)
      (hawaited : r.blocks.top.awaited = false) :
      Ensures (do if ← isAt .newline then advance else pure ()) r Q (Declines B) := by
    obtain ⟨g, hg⟩ := hr.poised.midway
    rw [ensures_bind, ensures_isAt, ensures_ite]
    split
    · next hk =>
      refine advance_holds_kind hg (beq_iff_eq.1 hk) (by simp) fun t s ht hs => ?_
      have hmade : Made B r [t] s := .blank r.autoAllowed (fun h => ⟨h, beq_iff_eq.1 hk⟩) (by simp)
        (List.forall_mem_singleton.2 (.inr ht)) (arrives_of_midway hr.poised hs)
      exact hQ _ s (hr.next hgo hmade hawaited)
    · exact hQ w r hr
  rw [ensures_bind, ensures_isAt]
  split
  · next hk =>
    rw [ensures_bind]
    refine autoDecl_holds h.poised (beq_iff_eq.1 hk) fun t w r hauto ht hw hr => ?_
    have hmade : Made B q (t :: w) r := .auto hauto ht hw hr
    refine hnewline _ r (h.next hgo hmade hq) (hr.quitting.trans hgo) ?_
    rw [hr.blocks]
    exact hq
  · exact hnewline v q h hgo hq

/-- **The brace of a body**, with its first statement. -/
theorem enter_holds (h : p.Poised B) (hk : p.token.kind = .symbol .leftBrace)
    (hawaited : p.blocks.top.awaited = true)
    (hQ : ∀ v q, Deeds B p v q → Q () q) :
    Ensures (do
      modifyBlocks fun s => s.modifyTop ({ · with brace := true })
      advance
      body true) { p with autoAllowed := false } Q (Declines B) := by
  rw [ensures_bind]
  refine setTop_holds (h.flags false p.quitting) rfl (fun _ => rfl) (fun b hb hnil => ?_)
    fun q₁ h₁ => ?_
  · rw [show p.blocks.top = _ from (h.balanced b hb).top_eq hnil] at hawaited
    cases hawaited
  obtain ⟨g, hg⟩ := h₁.midway
  rw [← (Pass.From.refl _).token_eq h₁.toFrom] at hk
  rw [ensures_bind]
  refine advance_holds_kind hg hk (by simp) fun t q₂ ht h₂ => ?_
  have hr₂ := h₁.trans (arrives_of_midway h₁.toPoised h₂)
  rw [h₁.blocks] at hr₂
  rw [body, ensures_bind]
  refine begin_holds hr₂.toPoised fun q₃ h₃ => ?_
  have hr₃ := hr₂.trans h₃
  rw [hr₂.blocks] at hr₃
  have hbegun : q₃.blocks.top.awaited = false := by
    rw [hr₃.blocks]
    rfl
  have hgo₃ : q₃.quitting = p.quitting := hr₃.quitting
  have hfunc₃ : q₃.blocks.top.funcBody = p.blocks.top.funcBody := by
    rw [hr₃.blocks]
    rfl
  rw [ensures_bind, ensures_topBlock, ensures_ite, hfunc₃]
  split
  · next hfunc =>
    rw [if_pos rfl, functionStart, ensures_bind, ensures_modify]
    have hr : Pass.Arrives B { q₃ with autoAllowed := true }
        { p with autoAllowed := p.blocks.top.funcBody } [t]
        (p.blocks.modifyTop ({ · with brace := true, awaited := false })) :=
      { hr₃ with
        toPoised := hr₃.toPoised.flags true q₃.quitting
        autoAllowed := hfunc.symm }
    exact functionBody_holds (.single (.enter ht hawaited hr)) hgo₃ hbegun hQ
  · next hfunc =>
    have hdeed : Deed B p [t] q₃ := by
      refine .enter ht hawaited ?_
      rw [eq_false_of_ne_true hfunc]
      exact hr₃
    simp only [ensures_bind, ensures_get]
    refine innerStatement_holds hr₃.toPoised fun v q hq => ?_
    simp only [bodyEnd, ensures_bind, ensures_get, Bool.not_true, Bool.and_false, Bool.false_and,
      Bool.false_eq_true, if_false, ensures_pure]
    exact hQ _ q (.next (.single hdeed) hgo₃ hq hbegun)

/-- **A body without a brace**: a statement, which ends it. -/
theorem bare_holds (h : p.Poised B) (hk : p.token.kind.isBeforeBody = false)
    (hawaited : p.blocks.top.awaited = true) (hbrace : p.blocks.top.brace = false)
    (hended : p.blocks.top.ifEnded = false) (hQ : ∀ v q, Deed B p v q → Q () q) :
    Ensures (body false) { p with autoAllowed := false } Q (Declines B) := by
  rw [body, ensures_bind]
  refine begin_holds (h.flags false p.quitting) fun s hs => ?_
  have hfunc : s.blocks.top.funcBody = p.blocks.top.funcBody := by
    rw [hs.blocks]
    rfl
  rw [ensures_bind, ensures_topBlock, ensures_ite, hfunc]
  split
  · obtain ⟨g, hg⟩ := hs.midway
    exact unexpected_holds hg
  next hfunc =>
  have hbegins : Begins B p s :=
    ⟨hk, hawaited, hbrace, eq_false_of_ne_true hfunc, hended, hs⟩
  simp only [ensures_bind, ensures_get]
  refine innerStatement_holds hs.toPoised fun v r hr => ?_
  simp only [bodyEnd, ensures_bind, ensures_get, ensures_ite, ensures_pure]
  split
  · next hcond =>
    simp only [Bool.and_eq_true, Bool.not_eq_true', decide_eq_true_eq] at hcond
    obtain ⟨⟨⟨hgo, -⟩, hbegun⟩, hdepth⟩ := hcond
    have hmark : ∀ b ∈ B, r.blocks.top.ifEnded = false := by
      intro b hb
      by_contra hmark
      rcases (hr.moved hb).ended (eq_true_of_ne_false hmark) with hmark' | hlt
      · rw [hs.blocks] at hmark'
        cases hended.symm.trans hmark'
      · omega
    refine endBody_holds hr.poised hmark (by simp) fun w u q hw hq hclosed => ?_
    obtain rfl : w = [] := List.map_eq_nil_iff.1 hw
    exact hQ _ q (.ends hbegins hr hgo hbegun ⟨hq, hclosed⟩)
  · next hcond =>
    refine hQ v r (.bare hbegins hr ?_)
    by_contra hno
    simp only [not_or, Bool.not_eq_true, not_lt] at hno
    exact hcond (by simpa [hno.1, hno.2.1] using hno.2.2)

/-- **Every statement is a sequence of deeds.** -/
theorem statement_holds (h : p.Poised B) (hQ : ∀ v q, Deeds B p v q → Q () q) :
    Ensures statement p Q (Declines B) := by
  simp only [statement, statementFrom, ensures_bind, ensures_kind, ensures_topBlock, ensures_ite]
  split
  · next hplain =>
    refine innerStatement_holds h fun v q hq => hQ v q (.single (.inner hq fun _ => ?_))
    rcases hplain with hk | hk | hk | hended
    · exact .inl (by rw [hk]; rfl)
    · exact .inl (by rw [hk]; rfl)
    · exact .inl (by rw [hk]; rfl)
    · exact .inr (.inl hended)
  next hplain =>
  simp only [not_or, Bool.not_eq_true] at hplain
  obtain ⟨hnewline, hauto, helse, hended⟩ := hplain
  split
  · next hbrace =>
    simp only [Bool.and_eq_true, beq_iff_eq] at hbrace
    rw [forbidAuto, ensures_modify]
    have henter := enter_holds h hbrace.2 hbrace.1 hQ
    simpa only [ensures_bind] using henter
  split
  · next hbare =>
    rw [Bool.and_eq_true, Bool.not_eq_true'] at hbare
    rw [forbidAuto, ensures_modify]
    exact bare_holds h (Token.Kind.isBeforeBody_eq_false hnewline hauto helse) hbare.1 hbare.2
      hended fun v q hq => hQ v q (.single hq)
  · next hbare =>
    refine innerStatement_holds h fun v q hq => hQ v q (.single (.inner hq fun hawaited => ?_))
    exact .inr (.inr (by simpa [hawaited] using hbare))

/-- **Every item is a sequence of deeds.** -/
theorem item_holds (hB : ∀ b ∈ B, ∀ name, p.Heads name → b.anew name) (h : p.Poised B)
    (hQ : ∀ v q, Deeds B p v q → Q () q) :
    Ensures item p Q (Declines B) := by
  simp only [item, ensures_bind, ensures_isAt, ensures_get, ensures_ite, ensures_refuseHere]
  split
  · next hk =>
    rw [beq_iff_eq] at hk
    have hdefine (r : Pass) (hr : r.Arrives B p [] {}) (hbrace : p.blocks.hasBrace = false) :
        Ensures define r Q (Declines B) := by
      rw [← (Pass.From.refl _).token_eq hr.toFrom] at hk
      have hheads : r.Heads = p.Heads := by
        funext name
        rw [Pass.Heads, Pass.Heads, hr.rest, List.nil_append]
      refine define_holds hr.toPoised (hheads ▸ hB) hr.blocks hk
        fun t v b q ht hv hb hfunc hq hopen => ?_
      rw [hr.strictness] at hv hopen
      exact hQ _ q (.single (.define hbrace hr ht hv hb hfunc hq hopen))
    split
    · next hidle =>
      have hblocks := BlockStack.eq_of_isIdle hidle
      exact hdefine p { Pass.Arrives.refl h with blocks := hblocks } (by rw [hblocks]; rfl)
    · refine closeAll_holds h fun all v r hr hv hall => ?_
      split
      · next hyes =>
        obtain ⟨hblocks, hbrace⟩ := hall hyes
        -- the current token is none of those that are read
        have hnil : v = [] := by
          cases v with
          | nil => rfl
          | cons t v =>
            have htoken : p.token = t := (List.cons.inj hr.rest).1
            have ht := hv t List.mem_cons_self
            rw [← htoken, hk] at ht
            simp at ht
        subst hnil
        exact hdefine r { hr with blocks := hblocks } hbrace
      · obtain ⟨g, hg⟩ := hr.midway
        exact hg.declines _
  · exact statement_holds h hQ

end Compile

end DeskCalc
