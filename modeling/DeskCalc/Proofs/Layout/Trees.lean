import DeskCalc.Proofs.Layout.Items

/-!
# The code of a tree

A statement that is written as a tree is compiled to its layout (`Stmt.runs`). The proof is an
induction over the tree, with the bodies around the statement and what comes behind it as
parameters: these decide which bodies its end closes. `Fits` keeps together what is known of them.
-/

namespace DeskCalc

variable {inLoop inFunc : Bool} {b : Body} {code : List Placed} {n : Nat} {ss : List Stmt}
  {s : Stmt} {base : Outline} {loop : Targets} {w : Word} {ws : List Word} {fs : List Opening}

/-- The labels from `n` on lie at the positions `qs`. -/
def Marks (ps : List Nat) (n : Nat) (qs : List Nat) : Prop :=
  ∀ i t, qs[i]? = some t → ps[n + i]? = some t

namespace Marks

variable {ps qs rs : List Nat} {n t : Nat}

theorem head (h : Marks ps n (t :: qs)) : ps[n]? = some t := h 0 t rfl

theorem tail (h : Marks ps n (t :: qs)) : Marks ps (n + 1) qs := by
  intro i u hi
  rw [Nat.add_assoc, Nat.add_comm 1 i]
  exact h (i + 1) u hi

theorem left (h : Marks ps n (qs ++ rs)) : Marks ps n qs := by
  intro i u hi
  refine h i u ?_
  rw [List.getElem?_append_left (List.getElem?_eq_some_iff.1 hi).1]
  exact hi

theorem right (h : Marks ps n (qs ++ rs)) : Marks ps (n + qs.length) rs := by
  intro i u hi
  rw [Nat.add_assoc]
  refine h _ u ?_
  rw [List.getElem?_append_right (Nat.le_add_right _ _), Nat.add_sub_cancel_left]
  exact hi

end Marks

namespace Outline.Allows

variable {ps : List Nat} {o : Outline} {inLoop inFunc : Bool} {loop : Targets}

theorem brace (h : o.Allows ps inLoop inFunc loop) : o.brace.Allows ps inLoop inFunc loop :=
  ⟨h.looped, h.exit, h.next, h.defined⟩

/-- The body of an `if` or of an `else` belongs to the loop around it. -/
theorem inside_of_not_loop (h : o.Allows ps inLoop inFunc loop) {f : Opening}
    (hf : f.exit.isLoop = false) (brace : Bool) :
    (o.inside f brace).Allows ps inLoop inFunc loop := by
  cases f with
  | loop => cases hf
  | branch | other => exact ⟨h.looped, h.exit, h.next, h.defined⟩

/-- The body of a loop. -/
theorem inside_loop (h : o.Allows ps inLoop inFunc loop) {next exit : Nat} {loop' : Targets}
    (hnext : ps[next]? = some loop'.next) (hexit : ps[exit]? = some loop'.exit) (brace : Bool) :
    (o.inside (.loop next exit) brace).Allows ps true inFunc loop' where
  looped _ := rfl
  exit _ := ⟨_, rfl, hexit⟩
  next _ := ⟨_, rfl, hnext⟩
  defined := h.defined

/-- Whether a body has a brace plays no part. -/
theorem inside_brace {f : Opening} {brace : Bool}
    (h : (o.inside f brace).Allows ps inLoop inFunc loop) (brace' : Bool) :
    (o.inside f brace').Allows ps inLoop inFunc loop :=
  ⟨h.looped, h.exit, h.next, h.defined⟩

end Outline.Allows

/-- Code is laid out behind `code`, its labels are those from `n` on, and `g` comes behind it. -/
structure Fits (ps : List Nat) (base : Outline) (fs : List Opening) (code : List Placed) (n : Nat)
    (inLoop inFunc : Bool) (loop : Targets) (g : Sequel) (w : Word) (ws : List Word)
    (positions : List Nat) (layout : List Placed) : Prop where
  isBase : base.IsBase
  allows : (base.bodies fs).Allows ps inLoop inFunc loop
  marks : Marks ps n positions
  unwinds : Unwinds ps g fs (code ++ layout)
  comes : g.Comes ps (n + positions.length) w ws

/-- The statement is compiled to its layout. -/
def Stmt.Runs (ps : List Nat) (s : Stmt) : Prop :=
  ∀ (base : Outline) (fs : List Opening) (code : List Placed) (n : Nat) (inLoop inFunc : Bool)
    (loop : Targets) (g : Sequel) (w : Word) (ws : List Word) (p : Pass),
    s.wellFormed inLoop inFunc = true → (fs ≠ [] → s.isBlock = false) →
    (g.isElse = true → s.takesElse = false) →
    Fits ps base fs code n inLoop inFunc loop g w ws (s.positions code.length)
      (s.layout code.length loop) →
    p.Here ps (base.start fs) code n (s.words ++ w :: ws) → p.Unblocked →
    Compile.LeadsTo
      (fun q => ∃ m, q.Met ps base (n + (s.positions code.length).length) w ws 0 m g) p

/-- The body is compiled to its layout. Some of the line feeds before it may have been read. -/
def Body.Runs (ps : List Nat) (b : Body) : Prop :=
  ∀ (base : Outline) (f : Opening) (fs : List Opening) (code : List Placed) (n : Nat)
    (inLoop inFunc : Bool) (loop : Targets) (g : Sequel) (w : Word) (ws us : List Word) (p : Pass)
    (least j : Nat), b.wellFormed inLoop inFunc = true → (g.isElse = true → b.takesElse = false) →
    Fits ps base (f :: fs) code n inLoop inFunc loop g w ws (b.positions code.length)
      (b.layout code.length loop) →
    (0 < least ∨ g.isElse = true ∧ f.isBranch = true) → b.words least ++ w :: ws = lines j ++ us →
    (p.previous.blocksStep = false ∨ j = 0 ∧ b.leadsWithStep = false) →
    p.Here ps ((base.bodies fs).enter f) code n us →
    Compile.LeadsTo
      (fun q => ∃ m, q.Met ps base (n + (b.positions code.length).length) w ws 0 m g) p

/-- The statements are compiled to their layout. -/
def Stmt.RunAll (ps : List Nat) (ss : List Stmt) : Prop :=
  ∀ (base : Outline) (code : List Placed) (n : Nat) (inLoop inFunc : Bool) (loop : Targets)
    (w : Word) (ws : List Word) (p : Pass), Stmt.allWellFormed inLoop inFunc ss = true →
    Fits ps base [] code n inLoop inFunc loop
      (.rest (code ++ Stmt.layoutOfAll code.length loop ss)) w ws
      (Stmt.positionsOfAll code.length ss) (Stmt.layoutOfAll code.length loop ss) →
    p.Here ps base code n (Stmt.wordsOfAll ss ++ w :: ws) → p.previous.blocksStep = false →
    Compile.ComesTo (fun q => ∃ m, q.Met ps base
      (n + (Stmt.positionsOfAll code.length ss).length) w ws 0 m
      (.rest (code ++ Stmt.layoutOfAll code.length loop ss))) p

/-! ## How statements begin -/

/-- A statement begins with a word of its own. -/
theorem Stmt.exists_words_eq (h : s.wellFormed inLoop inFunc = true) : ∃ v vs, s.words = v :: vs ∧
      (v.1.opensStatement = true ∨ s.isBlock = true ∧ v.1 = .symbol .leftBrace) := by
  cases s with
  | simple s behind =>
    obtain ⟨v, vs, hv, hopens⟩ := s.exists_words_eq h
    exact ⟨v, vs ++ lines (behind + 1), by rw [Stmt.words, hv]; rfl, .inl hopens⟩
  | block inside ss behind => exact ⟨_, _, by rw [Stmt.words]; rfl, .inr ⟨rfl, rfl⟩⟩
  | ifThen | ifElse | whileLoop | forLoop => exact ⟨_, _, by rw [Stmt.words]; rfl, .inl rfl⟩

theorem Stmt.exists_follows (h : s.wellFormed inLoop inFunc = true) :
    ∃ v vs, s.words = v :: vs ∧ v.1.followsStatement = true ∧
      v.1 ≠ .keyword .elseBranch ∧ v.1 ≠ .eof := by
  obtain ⟨v, vs, hv, hopens | ⟨-, hbrace⟩⟩ := s.exists_words_eq h
  · exact ⟨v, vs, hv, by simp [Token.Kind.followsStatement, hopens],
      Token.Kind.ne_of_opensStatement hopens rfl, Token.Kind.ne_of_opensStatement hopens rfl⟩
  · exact ⟨v, vs, hv, by rw [hbrace]; rfl, by simp [hbrace], by simp [hbrace]⟩

/-- A body begins with line feeds and a word of its own. -/
theorem Body.exists_words_eq (least : Nat) (h : b.wellFormed inLoop inFunc = true) :
    ∃ i v vs, b.words least = lines i ++ v :: vs ∧ v.1.isBlank = false := by
  cases b with
  | braced before inside ss behind =>
    exact ⟨before, _, _, by rw [Body.words, List.append_assoc, List.append_assoc]; rfl, rfl⟩
  | bare before s =>
    simp only [Body.wellFormed, Bool.and_eq_true] at h
    obtain ⟨v, vs, hv, hfollows, -⟩ := s.exists_follows h.1
    refine ⟨before, v, vs, ?_, Token.Kind.isBlank_of_followsStatement hfollows⟩
    rw [Body.words, hv]

/-! ## Statements -/

open Compile

variable {ps : List Nat}

theorem Stmt.runs_simple (s : Simple) (behind : Nat) : (Stmt.simple s behind).Runs ps := by
  intro base fs code n inLoop inFunc loop g w ws p hs _ _ hfits hp hprevious
  obtain ⟨v, vs, hv, hopens⟩ := s.exists_words_eq hs
  have hkind : p.token.kind = v.1 :=
    Pass.kind_of_words (hp.words.trans (by rw [Stmt.words, hv]; rfl))
  have heof : p.token.kind ≠ .eof := hkind ▸ Token.Kind.ne_of_opensStatement hopens rfl
  exact leadsTo_met heof (item_simple hfits.isBase hs hfits.allows hp hprevious hfits.comes
    hfits.unwinds)

/-- The body behind a header with the labels `qs` and the code `header`. Behind the body stands the
code `back`. -/
theorem Fits.body {header back : List Placed} {inLoop' : Bool} {loop' : Targets} {g : Sequel}
    {qs : List Nat} {inside : Nat} {f : Opening}
    (h : Fits ps base fs code n inLoop inFunc loop g w ws (qs ++ b.positions inside)
      (header ++ b.layout inside loop' ++ back)) (hinside : inside = (code ++ header).length)
    (hallows : ((base.bodies fs).inside f false).Allows ps inLoop' inFunc loop')
    (hends : f.Ends ps (code ++ header ++ b.layout inside loop')
      (code ++ header ++ b.layout inside loop' ++ back)) (hf : g.isElse = true → f.isBranch = false) :
    Fits ps base (f :: fs) (code ++ header) (n + qs.length) inLoop' inFunc loop' g w ws
      (b.positions (code ++ header).length) (b.layout (code ++ header).length loop') := by
  subst hinside
  have hcomes := h.comes
  have hunwinds := h.unwinds
  rw [List.length_append, ← Nat.add_assoc] at hcomes
  rw [← List.append_assoc, ← List.append_assoc] at hunwinds
  exact ⟨h.isBase, hallows, h.marks.right, .cons hf hends hunwinds, hcomes⟩

/-- A header is compiled, and then its body. -/
theorem leadsTo_header (hb : b.Runs ps) {f : Opening} {header : List Placed} {l : Nat} {g : Sequel}
    {v : Word} {vs : List Word} {p : Pass} {least : Nat}
    (hwf : b.wellFormed inLoop inFunc = true ∧ b.leadsWithStep = false)
    (htakes : g.isElse = true → b.takesElse = false)
    (hfits : Fits ps base (f :: fs) (code ++ header) (n + l) inLoop inFunc loop g w ws
      (b.positions (code ++ header).length) (b.layout (code ++ header).length loop))
    (hleast : 0 < least ∨ g.isElse = true ∧ f.isBranch = true) (hopens : v.1.opensStatement = true)
    (hhead : ∀ (q : Pass) (us : List Word) (R : Unit → Pass → Prop),
      q.Here ps (base.bodies fs) code n (v :: (vs ++ us)) →
      (∀ r, r.Here ps ((base.bodies fs).enter f) (code ++ header) (n + l) us → R () r) →
      Ensures (statementHead v.1) q R OnlyShort)
    (hp : p.Here ps (base.start fs) code n (v :: (vs ++ (b.words least ++ w :: ws)))) :
    LeadsTo (fun q => ∃ m, q.Met ps base
      (n + l + (b.positions (code ++ header).length).length) w ws 0 m g) p := by
  obtain ⟨i, u, us, hwords, hu⟩ := b.exists_words_eq least hwf.1
  have hline : b.words least ++ w :: ws = lines i ++ u :: (us ++ w :: ws) := by
    rw [hwords, List.append_assoc]
    rfl
  have hitem := item_header hfits.isBase hopens (hline ▸ hp) (fun q R hq hR => hhead q _ R hq hR) hu
  refine leadsTo_of_item (hp.kind_eq ▸ Token.Kind.ne_of_opensStatement hopens rfl)
    (hitem.imp fun _ q ⟨hq, hprevious⟩ => ⟨hq.quitting_eq, fun hs => .inr ?_⟩)
  refine hb base f fs _ _ inLoop inFunc loop g w ws (u :: (us ++ w :: ws)) _ least i hwf.1 htakes
    hfits hleast hline (hprevious.imp (fun hline => ?_) fun hi => ⟨hi, hwf.2⟩)
    (committed_here hq hs)
  change q.previous.blocksStep = false
  rw [hline]
  rfl

/-- The code of a header that tests a condition. -/
def testHeader (c : Expr) (exit : Nat) : List Placed := placed c.postorder ++ [.jumpZero exit]

theorem length_testHeader (c : Expr) (exit : Nat) :
    (testHeader c exit).length = c.postorder.length + 1 := by
  simp [testHeader]

/-- The words of a header with one condition. -/
def testWords (c : Expr) : List Word :=
  Symbol.word .leftParen :: (c.words ++ [Symbol.word .rightParen])

/-- An `if` and its body. -/
theorem leadsTo_if {c : Expr} (hb : b.Runs ps) {exit least : Nat} {g : Sequel} {p : Pass}
    (hc : c.wellFormed false = true)
    (hwf : b.wellFormed inLoop inFunc = true ∧ b.leadsWithStep = false)
    (htakes : g.isElse = true → b.takesElse = false)
    (hfits : Fits ps base (.branch n :: fs) (code ++ testHeader c exit) (n + 1) inLoop inFunc loop
      g w ws (b.positions (code ++ testHeader c exit).length)
      (b.layout (code ++ testHeader c exit).length loop)) (hexit : ps[n]? = some exit)
    (hleast : 0 < least ∨ g.isElse = true)
    (hp : p.Here ps (base.start fs) code n
      (Keyword.word .ifBranch :: (testWords c ++ (b.words least ++ w :: ws)))) :
    LeadsTo (fun q => ∃ m, q.Met ps base
      (n + 1 + (b.positions (code ++ testHeader c exit).length).length) w ws 0 m g) p := by
  refine leadsTo_header hb hwf htakes hfits (hleast.imp_right fun h => ⟨h, rfl⟩) rfl
    (fun q us R hq hR => ?_) hp
  refine ifHeader_here hc (by simpa [testWords] using hq) hexit fun r hr => hR r ?_
  rw [testHeader, ← List.append_assoc]
  exact hr

theorem Stmt.runs_ifThen (c : Expr) (hb : b.Runs ps) : (Stmt.ifThen c b).Runs ps := by
  intro base fs code n inLoop inFunc loop g w ws p hs _ htakes hfits hp _
  simp only [Stmt.wellFormed, Bool.and_eq_true, Bool.not_eq_true'] at hs
  have hrest : g.isElse = false := by
    simpa using mt htakes (by simp [Stmt.takesElse])
  set inside := code.length + c.postorder.length + 1 with hinside
  have hcode : (Stmt.ifThen c b).layout code.length loop =
      testHeader c (inside + b.size) ++ b.layout inside loop ++ [] := by
    simp [Stmt.layout, testHeader, hinside]
  have hmarks : (Stmt.ifThen c b).positions code.length =
      [inside + b.size] ++ b.positions inside := by
    simp [Stmt.positions, hinside]
  have hlength : inside = (code ++ testHeader c (inside + b.size)).length := by
    rw [List.length_append, length_testHeader, hinside, Nat.add_assoc]
  have hwords : (Stmt.ifThen c b).words ++ w :: ws =
      Keyword.word .ifBranch :: (testWords c ++ (b.words 1 ++ w :: ws)) := by
    simp [Stmt.words, testWords]
  rw [hcode, hmarks] at hfits
  have hexit : ps[n]? = some (inside + b.size) := hfits.marks.left.head
  have hbody := hfits.body (f := .branch n) hlength (hfits.allows.inside_of_not_loop rfl false)
    ⟨by simp, by rw [hexit, List.length_append, ← hlength, b.length_layout]⟩ (by simp [hrest])
  rw [hmarks, List.length_append, ← Nat.add_assoc, hlength]
  exact leadsTo_if hb hs.1 hs.2 (by simp [hrest]) hbody hexit (.inl Nat.one_pos) (hwords ▸ hp)

theorem Stmt.runs_ifElse (c : Expr) {other : Body} (hb : b.Runs ps) (hother : other.Runs ps) :
    (Stmt.ifElse c b other).Runs ps := by
  intro base fs code n inLoop inFunc loop g w ws p hs _ htakes hfits hp _
  simp only [Stmt.wellFormed, Bool.and_eq_true, Bool.not_eq_true'] at hs
  obtain ⟨⟨⟨hc, hbwf⟩, hbtakes⟩, howf⟩ := hs
  set inside := code.length + c.postorder.length + 1 with hinside
  set elsewhere := inside + b.size + 1 with helsewhere
  set exit := elsewhere + other.size with hexit
  set header := testHeader c elsewhere with hheader
  have hcode : (Stmt.ifElse c b other).layout code.length loop =
      header ++ b.layout inside loop ++ [.jump exit] ++ other.layout elsewhere loop ++ [] := by
    simp [Stmt.layout, testHeader, hinside, helsewhere, hexit, hheader]
  have hmarks : (Stmt.ifElse c b other).positions code.length =
      [elsewhere] ++ b.positions inside ++ [exit] ++ other.positions elsewhere := by
    simp [Stmt.positions, hinside, helsewhere, hexit]
  have hwords : (Stmt.ifElse c b other).words ++ w :: ws = Keyword.word .ifBranch ::
      (testWords c ++ (b.words 0 ++ Keyword.word .elseBranch :: (other.words 1 ++ w :: ws))) := by
    simp [Stmt.words, testWords]
  have hlength : inside = (code ++ header).length := by
    rw [List.length_append, hheader, length_testHeader, hinside, Nat.add_assoc]
  rw [hcode, hmarks] at hfits
  set n' := n + 1 + (b.positions inside).length with hn'
  have helse : ps[n]? = some elsewhere := hfits.marks.left.left.left.head
  have hbehind : ps[n']? = some exit := by
    have := hfits.marks.left.right.head
    rwa [List.length_append, ← Nat.add_assoc] at this
  have hfirst : Fits ps base (.branch n :: fs) (code ++ header) (n + 1) inLoop inFunc loop
      (.other fs (code ++ header ++ b.layout inside loop) exit) (Keyword.word .elseBranch)
      (other.words 1 ++ w :: ws) (b.positions (code ++ header).length)
      (b.layout (code ++ header).length loop) := by
    rw [← hlength]
    refine ⟨hfits.isBase, hfits.allows.inside_of_not_loop rfl false, hfits.marks.left.left.right,
      .other ?_, ⟨iff_of_true rfl rfl, rfl, ?_, fun _ => ?_⟩⟩
    · rw [helse, List.length_append, ← hlength, b.length_layout]
    · rintro _ _ _ ⟨⟩
      exact hbehind
    · obtain ⟨i, v, vs, hwords, hv⟩ := other.exists_words_eq 1 howf
      exact ⟨i, v, vs ++ w :: ws, by rw [hwords, List.append_assoc]; rfl, hv⟩
  have hjump : code ++ header ++ b.layout inside loop ++ [.jump exit] =
      code ++ (header ++ b.layout inside loop ++ [.jump exit]) := by
    simp
  have hcount : n + ([elsewhere] ++ b.positions inside ++ [exit]).length = n' + 1 := by
    simp only [List.length_append, List.length_singleton]
    omega
  have hreached : elsewhere =
      (code ++ (header ++ b.layout inside loop ++ [Placed.jump exit])).length := by
    rw [← hjump, List.length_append, List.length_append, ← hlength, b.length_layout]
    rfl
  have hsecond := hfits.body (f := .other n') hreached
    (hfits.allows.inside_of_not_loop rfl false)
    ⟨by simp, by rw [hbehind, List.length_append, ← hreached, other.length_layout]⟩ fun _ => rfl
  rw [hcount] at hsecond
  refine (leadsTo_if hb hc hbwf (fun _ => hbtakes) hfirst helse (.inr rfl) (hwords ▸ hp)).then ?_
  rintro q ⟨m, hq⟩
  cases hq with
  | waiting _ _ hg => cases hg
  | other hlines hstep hq =>
    rw [← hlength, hjump] at hq
    rw [hmarks, List.length_append, ← Nat.add_assoc, hcount, hreached]
    exact .inr (hother base (.other n') fs _ (n' + 1) inLoop inFunc loop g w ws _ q 1 _ howf
      (by simpa [Stmt.takesElse] using htakes) hsecond (.inl Nat.one_pos) hlines (.inl hstep) hq)

theorem Stmt.runs_whileLoop (c : Expr) (hb : b.Runs ps) : (Stmt.whileLoop c b).Runs ps := by
  intro base fs code n inLoop inFunc loop g w ws p hs _ htakes hfits hp _
  simp only [Stmt.wellFormed, Bool.and_eq_true, Bool.not_eq_true'] at hs
  set inside := code.length + c.postorder.length + 1 with hinside
  set exit := inside + b.size + 1 with hexit
  set header := testHeader c exit with hheader
  have hcode : (Stmt.whileLoop c b).layout code.length loop =
      header ++ b.layout inside ⟨code.length, exit⟩ ++ [.jump code.length] := by
    simp [Stmt.layout, testHeader, hinside, hexit, hheader]
  have hmarks : (Stmt.whileLoop c b).positions code.length =
      [code.length, exit] ++ b.positions inside := by
    simp [Stmt.positions, hinside, hexit]
  have hwords : (Stmt.whileLoop c b).words ++ w :: ws =
      Keyword.word .whileLoop :: (testWords c ++ (b.words 1 ++ w :: ws)) := by
    simp [Stmt.words, testWords]
  have hlength : inside = (code ++ header).length := by
    rw [List.length_append, hheader, length_testHeader, hinside, Nat.add_assoc]
  rw [hcode, hmarks] at hfits
  have hnext : ps[n]? = some code.length := hfits.marks.left.head
  have hbehind : ps[n + 1]? = some exit := hfits.marks.left.tail.head
  have hbody := hfits.body (f := .loop n (n + 1)) hlength
    (hfits.allows.inside_loop hnext hbehind false) ⟨code.length, hnext, rfl, ?_⟩ fun _ => rfl
  · rw [hmarks, List.length_append, ← Nat.add_assoc, hlength]
    refine leadsTo_header hb hs.2 (by simpa [Stmt.takesElse] using htakes) hbody (.inl Nat.one_pos)
      rfl (fun q us R hq hR => ?_) (hwords ▸ hp)
    refine whileHeader_here hs.1 (by simpa [testWords] using hq) hnext hbehind fun r hr => hR r ?_
    rw [hheader, testHeader, ← List.append_assoc]
    exact hr
  · rw [hbehind, List.length_append, List.length_append, ← hlength, b.length_layout, hexit]
    rfl

/-- The words of the header of a `for`. -/
def clausesWords (first test next : Option Expr) : List Word :=
  Symbol.word .leftParen :: (clauseWords first ++ Symbol.word .semicolon :: (clauseWords test ++
    Symbol.word .semicolon :: (clauseWords next ++ [Symbol.word .rightParen])))

/-- The code of the header of a `for`. -/
def clausesHeader (first test next : Option Expr) (start inside exit : Nat) : List Placed :=
  placed (clauseCode first) ++ placed (testCode test) ++ [.jumpZero exit] ++ [.jump inside] ++
    placed (clauseCode next) ++ [.jump start]

theorem Stmt.runs_forLoop (first test next : Option Expr) (hb : b.Runs ps) :
    (Stmt.forLoop first test next b).Runs ps := by
  intro base fs code n inLoop inFunc loop g w ws p hs _ htakes hfits hp _
  simp only [Stmt.wellFormed, Bool.and_eq_true, Bool.not_eq_true'] at hs
  obtain ⟨⟨⟨hfirst, htest⟩, hnext⟩, hwf⟩ := hs
  set start := code.length + (clauseCode first).length with hstart
  set update := start + (testCode test).length + 2 with hupdate
  set inside := update + (clauseCode next).length + 1 with hinside
  set exit := inside + b.size + 1 with hexit
  set header := clausesHeader first test next start inside exit with hheader
  have hcode : (Stmt.forLoop first test next b).layout code.length loop =
      header ++ b.layout inside ⟨update, exit⟩ ++ [.jump update] := by
    simp [Stmt.layout, clausesHeader, hstart, hupdate, hinside, hexit, hheader]
  have hmarks : (Stmt.forLoop first test next b).positions code.length =
      [start, update, inside, exit] ++ b.positions inside := by
    simp [Stmt.positions, hstart, hupdate, hinside, hexit]
  have hwords : (Stmt.forLoop first test next b).words ++ w :: ws = Keyword.word .forLoop ::
      (clausesWords first test next ++ (b.words 1 ++ w :: ws)) := by
    simp [Stmt.words, clausesWords]
  have hlength : inside = (code ++ header).length := by
    simp only [hheader, clausesHeader, List.length_append, length_placed, List.length_singleton,
      hinside, hupdate, hstart]
    omega
  rw [hcode, hmarks] at hfits
  have hlabels : ps[n]? = some start ∧ ps[n + 1]? = some update ∧ ps[n + 2]? = some inside ∧
      ps[n + 3]? = some exit :=
    ⟨hfits.marks.left.head, hfits.marks.left.tail.head, hfits.marks.left.tail.tail.head,
      hfits.marks.left.tail.tail.tail.head⟩
  have hcontinues := hlabels.2.1
  have hbehind := hlabels.2.2.2
  have hbody := hfits.body (f := .loop (n + 1) (n + 3)) hlength
    (hfits.allows.inside_loop hcontinues hbehind false) ⟨update, hcontinues, rfl, ?_⟩ fun _ => rfl
  · rw [hmarks, List.length_append, ← Nat.add_assoc, hlength]
    refine leadsTo_header hb hwf (by simpa [Stmt.takesElse] using htakes) hbody (.inl Nat.one_pos)
      rfl (fun q us R hq hR => ?_) (hwords ▸ hp)
    refine forHeader_here hfirst htest hnext (by simpa [clausesWords] using hq) hstart hupdate
      hinside hlabels fun r hr => hR r ?_
    rw [hheader, clausesHeader]
    simpa using hr
  · rw [hbehind, List.length_append, List.length_append, ← hlength, b.length_layout, hexit]
    rfl

/-! ## Statements one after the other -/

theorem Stmt.runAll_nil : Stmt.RunAll ps [] := by
  intro base code n inLoop inFunc loop w ws p _ _ hp hprevious
  simp only [Stmt.layoutOfAll, List.append_nil]
  exact .inl ⟨0, .rest hprevious hp⟩

/-- What comes behind the first of some statements. -/
theorem Stmt.comes_of_allWellFormed (hss : Stmt.allWellFormed inLoop inFunc ss = true)
    (hw : Sequel.Comes ps n w ws (.rest code)) (n' : Nat) (code' : List Placed) :
    ∃ v vs, Stmt.wordsOfAll ss ++ w :: ws = v :: vs ∧ (ss ≠ [] → v.1 ≠ .eof) ∧
      Sequel.Comes ps n' v vs (.rest code') := by
  cases ss with
  | nil => exact ⟨w, ws, by rw [Stmt.wordsOfAll]; rfl, nofun, hw.isElse, hw.follows, nofun, nofun⟩
  | cons s ss =>
    simp only [Stmt.allWellFormed, Bool.and_eq_true] at hss
    obtain ⟨v, vs, hv, hfollows, helse, heof⟩ := s.exists_follows hss.1
    refine ⟨v, vs ++ Stmt.wordsOfAll ss ++ w :: ws, ?_, fun _ => heof, ?_, hfollows, nofun, nofun⟩
    · rw [Stmt.wordsOfAll, hv]
      rfl
    · exact iff_of_false helse Bool.false_ne_true

theorem Stmt.runAll_cons (hs : s.Runs ps) (hss : Stmt.RunAll ps ss) : Stmt.RunAll ps (s :: ss) := by
  intro base code n inLoop inFunc loop w ws p hwf hfits hp hprevious
  simp only [Stmt.allWellFormed, Bool.and_eq_true] at hwf
  have hcode : Stmt.layoutOfAll code.length loop (s :: ss) = s.layout code.length loop ++
      Stmt.layoutOfAll (code ++ s.layout code.length loop).length loop ss := by
    rw [Stmt.layoutOfAll, List.length_append, s.length_layout]
  have hmarks : Stmt.positionsOfAll code.length (s :: ss) = s.positions code.length ++
      Stmt.positionsOfAll (code ++ s.layout code.length loop).length ss := by
    rw [Stmt.positionsOfAll, List.length_append, s.length_layout]
  rw [hcode, hmarks, ← List.append_assoc] at hfits
  rw [hcode, hmarks, ← List.append_assoc, List.length_append, ← Nat.add_assoc]
  obtain ⟨v, vs, hwords, heof, hcomes⟩ := Stmt.comes_of_allWellFormed hwf.2 hfits.comes
    (n + (s.positions code.length).length) (code ++ s.layout code.length loop)
  rw [Stmt.wordsOfAll, List.append_assoc, hwords] at hp
  have hfirst : Fits ps base [] code n inLoop inFunc loop
      (.rest (code ++ s.layout code.length loop)) v vs (s.positions code.length)
      (s.layout code.length loop) :=
    ⟨hfits.isBase, hfits.allows, hfits.marks.left, .nil _, hcomes⟩
  have hrun := hs base [] code n inLoop inFunc loop _ v vs p hwf.1 (absurd rfl)
    (by simp [Sequel.isElse]) hfirst hp (.of_previous hprevious)
  refine .inr (hrun.then fun q ⟨m, hq⟩ => ?_)
  by_cases hnil : ss = []
  · subst hnil
    obtain ⟨rfl, rfl⟩ := List.cons.inj (hwords : w :: ws = v :: vs)
    simp only [Stmt.layoutOfAll, List.append_nil]
    exact .inl ⟨m, hq⟩
  · refine (comesTo_rest hfits.isBase hcomes (heof hnil) hq).then fun r ⟨hr, hstep⟩ => ?_
    have hcount := hfits.comes
    rw [List.length_append, ← Nat.add_assoc] at hcount
    exact hss base _ _ inLoop inFunc loop w ws r hwf.2
      ⟨hfits.isBase, hfits.allows, hfits.marks.right, .nil _, hcount⟩ (hwords ▸ hr) hstep

/-! ## Braces and bodies -/

theorem Sequel.comes_rightBrace (n : Nat) (us : List Word) (code : List Placed) :
    Sequel.Comes ps n (Symbol.word .rightBrace) us (.rest code) :=
  ⟨by simp [Sequel.isElse], rfl, nofun, by simp [Sequel.isElse]⟩

/-- The statements between two braces. -/
theorem comesTo_rightBrace (hss : Stmt.RunAll ps ss) {inside : Nat} {us : List Word} {p : Pass}
    (hbase : base.IsBase) (hallows : base.Allows ps inLoop inFunc loop)
    (hwf : Stmt.allWellFormed inLoop inFunc ss = true)
    (hmarks : Marks ps n (Stmt.positionsOfAll code.length ss))
    (hp : p.Here ps base code n
      (lines inside ++ (Stmt.wordsOfAll ss ++ Symbol.word .rightBrace :: us)))
    (hprevious : p.previous.blocksStep = false) :
    ComesTo (fun q => q.Here ps base (code ++ Stmt.layoutOfAll code.length loop ss)
      (n + (Stmt.positionsOfAll code.length ss).length) (Symbol.word .rightBrace :: us)) p := by
  have hclose : Sequel.Comes ps (n + (Stmt.positionsOfAll code.length ss).length)
      (Symbol.word .rightBrace) us (.rest (code ++ Stmt.layoutOfAll code.length loop ss)) :=
    Sequel.comes_rightBrace _ us _
  obtain ⟨v, vs, hwords, -, -⟩ := Stmt.comes_of_allWellFormed hwf hclose n code
  rw [hwords] at hp
  refine (comesTo_lines hp).then fun q ⟨hq, hq'⟩ => ?_
  rw [← hwords] at hq
  refine (hss base code n inLoop inFunc loop _ us q hwf ⟨hbase, hallows, hmarks, .nil _, hclose⟩ hq
    (blocksStep_of_lines hq' hprevious)).then fun r ⟨m, hr⟩ => ?_
  exact (comesTo_rest hbase hclose (by simp) hr).then fun t ht => .inl ht.1

theorem Stmt.runs_block (inside : Nat) (behind : Nat) (hss : Stmt.RunAll ps ss) :
    (Stmt.block inside ss behind).Runs ps := by
  intro base fs code n inLoop inFunc loop g w ws p hs hblock _ hfits hp _
  obtain rfl : fs = [] := by
    by_contra hne
    exact Bool.false_ne_true (hblock hne).symm
  simp only [Stmt.wellFormed] at hs
  simp only [Stmt.positions, Stmt.layout] at hfits ⊢
  have hwords : (Stmt.block inside ss behind).words ++ w :: ws = Symbol.word .leftBrace ::
      (lines inside ++ (Stmt.wordsOfAll ss ++
        Symbol.word .rightBrace :: (lines (behind + 1) ++ w :: ws))) := by
    simp [Stmt.words]
  rw [hwords] at hp
  have hkind : p.token.kind = .symbol .leftBrace := hp.kind_eq
  obtain ⟨hbase, hallows, hmarks, hunwinds, hcomes⟩ := hfits
  cases hunwinds
  refine leadsTo_of_item (by simp [hkind]) (item_brace hbase hp fun q hq hprevious => ?_)
  refine ⟨hq.quitting_eq, fun hsteady => .inr ?_⟩
  refine (comesTo_rightBrace hss (.brace base) hallows.brace hs hmarks (committed_here hq hsteady)
    ?_).leadsTo fun r hr => ?_
  · change q.previous.blocksStep = false
    rw [hprevious]
    rfl
  · have hkind : r.token.kind = .symbol .rightBrace := hr.kind_eq
    exact leadsTo_met (by simp [hkind]) (item_rightBrace_brace hbase hr hcomes)

theorem Body.runs_bare (before : Nat) (hs : s.Runs ps) : (Body.bare before s).Runs ps := by
  intro base f fs code n inLoop inFunc loop g w ws us p least j hwf htakes hfits _ hlines
    hprevious hp
  simp only [Body.wellFormed, Bool.and_eq_true, Bool.not_eq_true'] at hwf
  simp only [Body.positions, Body.layout] at hfits ⊢
  obtain ⟨v, vs, hv, hfollows, -⟩ := s.exists_follows hwf.1
  rw [Body.words, List.append_assoc, hv, List.cons_append] at hlines
  obtain ⟨d, hd, rfl⟩ := exists_lines_of_append
    (Token.Kind.ne_of_followsStatement hfollows rfl) hlines
  refine (comesTo_lines hp).leadsTo fun q ⟨hq, hq'⟩ => ?_
  -- a step is on a line of its own, or behind a token that does not block it
  have hunblocked : q.Unblocked := by
    intro up hk
    rcases hq' with hq' | ⟨rfl, rfl⟩
    · rw [hq']
      rfl
    refine hprevious.resolve_right ?_
    rintro ⟨rfl, hleads⟩
    have hstep : v.1 = .symbol (Expr.stepSymbol up) := hq.kind_eq.symm.trans hk
    rw [hd, Body.leadsWithStep, hv] at hleads
    cases up <;> simp [hstep, Expr.stepSymbol] at hleads
  rw [← List.cons_append, ← hv] at hq
  exact hs base (f :: fs) code n inLoop inFunc loop g w ws q hwf.1 (fun _ => hwf.2)
    (by simpa [Body.takesElse] using htakes) hfits hq hunblocked

theorem Body.runs_braced (before inside : Nat) (behind : Nat) (hss : Stmt.RunAll ps ss) :
    (Body.braced before inside ss behind).Runs ps := by
  intro base f fs code n inLoop inFunc loop g w ws us p least j hwf _ hfits hleast hlines _ hp
  simp only [Body.wellFormed] at hwf
  simp only [Body.positions, Body.layout] at hfits ⊢
  obtain ⟨hbase, hallows, hmarks, hunwinds, hcomes⟩ := hfits
  set close := Symbol.word .rightBrace :: (lines (behind + least) ++ w :: ws) with hclose
  have hwords : (Body.braced before inside ss behind).words least ++ w :: ws = lines before ++
      Symbol.word .leftBrace :: (lines inside ++ (Stmt.wordsOfAll ss ++ close)) := by
    simp [Body.words, hclose]
  obtain ⟨d, -, rfl⟩ := exists_lines_of_append (by simp) (hwords.symm.trans hlines)
  -- behind the brace there is a word, whatever it is
  obtain ⟨v, vs, hv, hdefine⟩ : ∃ v vs, lines inside ++ (Stmt.wordsOfAll ss ++ close) = v :: vs ∧
      v.1 ≠ .keyword .define := by
    have hend : Sequel.Comes ps n (Symbol.word .rightBrace) (lines (behind + least) ++ w :: ws)
        (.rest code) := Sequel.comes_rightBrace n _ code
    obtain ⟨v, vs, hv, -, hfirst⟩ := Stmt.comes_of_allWellFormed hwf hend n code
    rw [hclose, hv]
    cases inside with
    | zero => exact ⟨v, vs, rfl, Token.Kind.ne_of_followsStatement hfirst.follows rfl⟩
    | succ i => exact ⟨_, _, rfl, by simp⟩
  refine (comesTo_lines hp).leadsTo fun q ⟨hq, _⟩ => ?_
  have hkind : q.token.kind = .symbol .leftBrace := hq.kind_eq
  rw [hv] at hq
  refine leadsTo_of_item (by simp [hkind]) (item_leftBrace hq hdefine fun r hr hprevious => ?_)
  rw [← hv] at hr
  refine LeadsTo.ensures ((comesTo_rightBrace hss (.inside _ f) (hallows.inside_brace true) hwf
    hmarks hr (by rw [hprevious]; rfl)).leadsTo fun t ht => ?_)
  have htkind : t.token.kind = .symbol .rightBrace := ht.kind_eq
  exact leadsTo_met (by simp [htkind])
    (item_rightBrace hbase ht (hleast.imp_left (by omega)) hcomes hunwinds)

/-! ## Trees -/

mutual

/-- **A statement is compiled to its layout.** -/
theorem Stmt.runs : (s : Stmt) → s.Runs ps
  | .simple s behind => Stmt.runs_simple s behind
  | .block inside ss behind => Stmt.runs_block inside behind (Stmt.runAll ss)
  | .ifThen c b => Stmt.runs_ifThen c b.runs
  | .ifElse c b other => Stmt.runs_ifElse c b.runs other.runs
  | .whileLoop c b => Stmt.runs_whileLoop c b.runs
  | .forLoop first test next b => Stmt.runs_forLoop first test next b.runs

theorem Body.runs : (b : Body) → b.Runs ps
  | .braced before inside ss behind => Body.runs_braced before inside behind (Stmt.runAll ss)
  | .bare before s => Body.runs_bare before s.runs

theorem Stmt.runAll : (ss : List Stmt) → Stmt.RunAll ps ss
  | [] => Stmt.runAll_nil
  | s :: ss => Stmt.runAll_cons s.runs (Stmt.runAll ss)

end

end DeskCalc
