import DeskCalc.Proofs.Chunks.InputEnd
import DeskCalc.Proofs.Layout.Trees

/-!
# The main code of a text

The items of a chunk follow one another until its last token (`iterate_of_comesTo`). If statements
are all that the text has, an `if` without braces at its very end may still wait for its `else`; the
end of the input settles it (`closeAll_met`). Then every label has its offset, and the code that has
been laid out is the code of the function: `f.LaidOut P code`.
-/

namespace DeskCalc

/-! ## Words -/

/-- The word is no error. -/
def isClean (w : Word) : Bool := w.1 != .error

@[simp] theorem isClean_symbol (s : Symbol) : isClean s.word = true := rfl

@[simp] theorem isClean_keyword (k : Keyword) : isClean k.word = true := rfl

@[simp] theorem isClean_newline : isClean (.newline, "") = true := rfl

@[simp] theorem all_lines_isClean (n : Nat) : (lines n).all isClean = true := by
  induction n with
  | zero => rfl
  | succ n ih => exact ih

theorem Expr.all_words_isClean (e : Expr) : e.words.all isClean = true := by
  have hinner := e.all_words_isInner
  simp only [List.all_eq_true] at hinner ⊢
  intro w hw
  have := hinner w hw
  simp only [isInner, Bool.and_eq_true] at this
  exact this.1.2

theorem all_clauseWords_isClean (e : Option Expr) : (clauseWords e).all isClean = true := by
  cases e with
  | none => rfl
  | some e => exact e.all_words_isClean

theorem PrintItem.all_wordsOfAll_isClean : (items : List PrintItem) →
    (wordsOfAll items).all isClean = true
  | [] => rfl
  | [.text _] => rfl
  | [.value e] => e.all_words_isClean
  | .text t :: item :: items => by
    simp [wordsOfAll, words, isClean, all_wordsOfAll_isClean (item :: items)]
  | .value e :: item :: items => by
    simp [wordsOfAll, words, e.all_words_isClean, all_wordsOfAll_isClean (item :: items)]

theorem Simple.all_words_isClean (s : Simple) : s.words.all isClean = true := by
  cases s with
  | value e => exact e.all_words_isClean
  | print items => simp [words, PrintItem.all_wordsOfAll_isClean]
  | returnValue e =>
    cases e with
    | none => rfl
    | some e => simp [words, e.all_words_isClean]
  | _ => rfl

mutual

theorem Stmt.all_words_isClean : (s : Stmt) → s.words.all isClean = true
  | .simple s _ => by simp [Stmt.words, s.all_words_isClean]
  | .block _ ss _ => by simp [Stmt.words, Stmt.all_wordsOfAll_isClean ss]
  | .ifThen c b => by simp [Stmt.words, c.all_words_isClean, b.all_words_isClean]
  | .ifElse c b other => by
    simp [Stmt.words, c.all_words_isClean, b.all_words_isClean, other.all_words_isClean]
  | .whileLoop c b => by simp [Stmt.words, c.all_words_isClean, b.all_words_isClean]
  | .forLoop _ _ _ b => by simp [Stmt.words, all_clauseWords_isClean, b.all_words_isClean]

theorem Body.all_words_isClean {least : Nat} : (b : Body) → (b.words least).all isClean = true
  | .braced _ _ ss _ => by simp [Body.words, Stmt.all_wordsOfAll_isClean ss]
  | .bare _ s => by simp [Body.words, s.all_words_isClean]

/-- The words of statements are no errors. -/
theorem Stmt.all_wordsOfAll_isClean : (ss : List Stmt) → (Stmt.wordsOfAll ss).all isClean = true
  | [] => rfl
  | s :: ss => by simp [Stmt.wordsOfAll, s.all_words_isClean, Stmt.all_wordsOfAll_isClean ss]

end

/-! ## Functions that are complete -/

/-- The code of the function is `code`: each of its instructions is the placed one, and a jump names
a label whose offset is that of the position the jump leads to. -/
def Function.LaidOut (P : Program) (f : Function) (code : List Placed) : Prop :=
  ∃ is, f.code.Holds is ∧ List.Forall₂
    (P.Places fun l t => f.labels.get? l = some (.known (Code.offsetOf is t))) code is

/-- When every label has been made and has an offset the function is complete. -/
theorem Function.Laid.laidOut {P : Program} {ps : List Nat} {f : Function} {code : List Placed}
    (h : f.Laid P ps code ps.length) (hset : ∀ l, f.labels.get? l ≠ some .pending) :
    f.LaidOut P code := by
  obtain ⟨is, his, hcode, hknown⟩ := h.code
  refine ⟨is, his, hcode.imp fun _ _ => Program.Places.mono (.refl P) fun l t hl => ?_⟩
  have hlt : l < f.labels.labels.size := by
    have hsize : f.labels.labels.size = ps.length := h.labels
    rw [hsize]
    exact (List.getElem?_eq_some_iff.1 hl).1
  obtain ⟨label, hlabel⟩ : ∃ label, f.labels.get? l = some label :=
    ⟨_, Array.getElem?_eq_getElem hlt⟩
  cases label with
  | pending => exact absurd hlabel (hset l)
  | known offset =>
    obtain ⟨t', -, ht', rfl⟩ := hknown l offset hlabel
    cases hl.symm.trans ht'
    exact hlabel

/-- Nothing is open, and code goes to the main program. -/
def Outline.idle : Outline := ⟨{}, [], [], Program.mainId, false⟩

theorem Outline.isBase_idle : Outline.idle.IsBase := .inl rfl

theorem Outline.allows_idle (ps : List Nat) : Outline.idle.Allows ps false false {} :=
  ⟨by simp, by simp, by simp, by simp⟩

/-- The end of the input closes everything, and `R` holds of the program then. -/
structure Pass.Concludes (R : Program → Prop) (p : Pass) : Prop where
  eof : p.token.kind = .eof
  lenient : p.strictness = .lenient
  closes : p.Steady False →
    ∃ q, Compile.closeAll p.toSession.atInputEnd = .ok true q ∧ R q.program

namespace Compile

variable {p q : Pass} {ps : List Nat} {base : Outline} {code : List Placed} {n m : Nat} {w : Word}
  {ws : List Word} {Q : Pass → Prop}

/-! ## The end of the input -/

theorem here_atInputEnd {o : Outline} (h : p.Here ps o code n [(.eof, "")]) (hp : p.Steady False) :
    p.toSession.atInputEnd.Here ps o code n [(.eof, "")] where
  function := by
    obtain ⟨f, hf, hlaid⟩ := h.function
    obtain ⟨g, hg⟩ := hp.consistent.steady_atInputEnd.stands
    exact ⟨f, ⟨hg.inOrder, hf.writing, False.elim⟩, hlaid⟩
  lenient := h.lenient
  outline := by
    rw [← h.outline]
    exact congrArg (Outline.mk _ _ _ _) h.quitting_eq.symm
  words := rfl
  clean := h.clean
  awake := h.awake

theorem met_atInputEnd (h : p.Met ps base n (.eof, "") [] 0 m (.rest code)) (hp : p.Steady False) :
    p.toSession.atInputEnd.Met ps base n (.eof, "") [] 0 m (.rest code) := by
  cases h with
  | rest _ h => exact .rest rfl (here_atInputEnd h hp)
  | waiting hfs hends hg hexit _ h => exact .waiting hfs hends hg hexit rfl (here_atInputEnd h hp)

/-- How often the end of the input may have to settle an `if`. -/
def unsettled (p : Pass) : Nat := if p.blocks.top.ifEnded then p.blocks.depth else 0

theorem unsettled_le (p : Pass) : unsettled p ≤ p.blocks.depth := by
  unfold unsettled
  split
  · exact Nat.le_refl _
  · exact Nat.zero_le _

theorem depth_lt_of_met (h : p.Met ps base n w ws 0 m (.rest code)) (hm : 0 < m) :
    p.blocks.depth < base.blocks.depth + m := by
  cases h with
  | rest _ h =>
    rw [h.blocks_eq]
    omega
  | @waiting _ _ fs _ _ hfs _ _ _ _ h =>
    rw [h.blocks_eq]
    change (base.bodies fs).blocks.depth < _
    rw [base.depth_bodies]
    omega

/-- One `if` is settled, with the bodies that end then. -/
theorem closeAllStep_met (hbase : base.blocks = {})
    (hg : Sequel.Comes ps n w ws (.rest code)) (h : p.Met ps base n w ws 0 m (.rest code)) :
    Ensures (closeAllStep ()) p (fun r q =>
      match r with
      | .inl _ => (∃ m, q.Met ps base n w ws 0 m (.rest code)) ∧ unsettled q < unsettled p
      | .inr all => all = true ∧ q.Here ps base code n (w :: ws)) OnlyShort := by
  have hdepth : base.blocks.depth = 1 := by rw [hbase]; rfl
  rw [Ensures, closeAllStep_eq]
  cases h with
  | rest _ h =>
    have hblocks : p.blocks = {} := h.blocks_eq.trans hbase
    rw [hblocks]
    exact ⟨rfl, h⟩
  | @waiting _ _ fs code' exit hfs hends helse hexit hstep h =>
    have hended : p.blocks.top.ifEnded = true := by
      rw [h.blocks_eq]
      rfl
    have hpdepth : p.blocks.depth = fs.length + 1 := by
      rw [h.blocks_eq]
      change (base.bodies fs).blocks.depth = _
      rw [base.depth_bodies, hdepth, Nat.add_comm]
    have hunsettled : unsettled p = fs.length + 1 := by rw [unsettled, hended, if_pos rfl, hpdepth]
    rw [hended, Bool.or_true, if_pos rfl, if_pos rfl]
    refine (ensures_bind _ _).2 (endIf_here (Outline.ifEnded_bodies (.inl hbase) fs) h hexit
      fun q hq hprevious => ?_)
    rw [hunsettled, hpdepth, closeAllBody, ensures_ite]
    cases hends with
    | nil =>
      rw [if_neg (by simp)]
      refine ⟨⟨0, .rest (hprevious ▸ hstep) hq⟩, ?_⟩
      rw [unsettled, hq.blocks_eq, Outline.bodies, hbase]
      exact Nat.one_pos
    | @cons _ f fs _ code'' hf hends hrest =>
      rw [if_pos (by simp), ensures_bind]
      refine endBody_here (.inl hbase) hq (hprevious ▸ hstep) (.cons hf hends hrest) hg
        fun r hr => ?_
      have hlt : r.blocks.depth < (f :: fs).length + 1 := by
        have := depth_lt_of_met hr (Nat.succ_pos _)
        simp only [List.length_cons]
        omega
      rw [ensures_bind, ensures_get, if_neg (Nat.not_le_of_lt hlt)]
      exact ⟨⟨_, hr⟩, Nat.lt_of_le_of_lt (unsettled_le r) hlt⟩

theorem hasBrace_bodies (o : Outline) (fs : List Opening) :
    (o.bodies fs).blocks.hasBrace = o.blocks.hasBrace := by
  induction fs with
  | nil => rfl
  | cons f fs ih => exact (Bool.false_or _).trans ih

theorem hasBrace_of_met (hbase : base.blocks = {}) (h : p.Met ps base n w ws 0 m (.rest code)) :
    p.blocks.hasBrace = false := by
  cases h with
  | rest _ h =>
    rw [h.blocks_eq, hbase]
    rfl
  | @waiting _ _ fs _ _ _ _ _ _ _ h =>
    rw [h.blocks_eq]
    change (base.bodies fs).blocks.hasBrace = false
    rw [hasBrace_bodies, hbase]
    rfl

/-- **The end of the input settles every `if`.** -/
theorem closeAll_met (hbase : base.blocks = {}) (hg : Sequel.Comes ps n w ws (.rest code))
    (h : p.Met ps base n w ws 0 m (.rest code)) :
    Ensures closeAll p (fun all q => all = true ∧ q.Here ps base code n (w :: ws)) OnlyShort := by
  rw [Ensures, closeAll_unless, if_neg (by simp [hasBrace_of_met hbase h])]
  refine ensures_iterate unsettled (fun _ q => ∃ m, q.Met ps base n w ws 0 m (.rest code)) ?_ _ _
    p ⟨m, h⟩ (unsettled_le p)
  rintro - q ⟨m, hq⟩
  refine (closeAllStep_met hbase hg hq).imp ?_
  rintro (_ | all) r hr
  · exact hr
  · exact hr

/-- With the last statement the main code is complete, but for an `if` that waits. -/
theorem concludes_of_met
    (h : p.Met ps .idle ps.length (.eof, "") [] 0 m (.rest code)) :
    p.Concludes fun P => P.main.name = "(main)" ∧ P.main.LaidOut P code := by
  have hg : Sequel.Comes ps ps.length (.eof, "") [] (.rest code) :=
    ⟨by simp [Sequel.isElse], rfl, by simp, by simp [Sequel.isElse]⟩
  have heof : p.token.kind = .eof ∧ p.strictness = .lenient := by
    cases h with
    | rest _ h | waiting _ _ _ _ _ h => exact ⟨h.kind_eq, h.lenient⟩
  refine ⟨heof.1, heof.2, fun hp => ?_⟩
  have hend := met_atInputEnd h hp
  have hquiet : p.toSession.atInputEnd.spot.Quiet .lenient := ⟨heof.2, by rintro ⟨⟩, by rintro ⟨⟩⟩
  obtain ⟨q, hq⟩ := closeAll_of_braceless hp.consistent.steady_atInputEnd hquiet
    (hasBrace_of_met rfl hend)
  obtain ⟨-, hhere⟩ := (closeAll_met rfl hg hend).ok hq
  obtain ⟨hf, hlaid⟩ := hhere.stands_of_function? (f := q.program.main) rfl
  refine ⟨q, hq, hf.writing.names.1, hlaid.laidOut fun l hl => ?_⟩
  have hpending := (hf.writing.pending l).1 hl
  rw [show q.exits = [] from hhere.exits_eq] at hpending
  cases hpending

/-! ## Chunks -/

/-- **The items of a chunk lead to its end.** -/
theorem iterate_of_comesTo {γ : Type} (hQ : ∀ q, Q q → q.token.kind = .eof) (h : ComesTo Q p)
    (hp : p.Steady False) (bound : List γ) (hb : p.weight ≤ bound.length) :
    Ensures (iterate (fun (_ : Unit) => nextItem) bound ()) p
      (fun _ q => Q q ∧ q.Steady False) OnlyShort := by
  have hlast {q : Pass} (hq : Q q) (hs : q.Steady False) (bound : List γ)
      (hb : q.weight ≤ bound.length) : Ensures (iterate (fun (_ : Unit) => nextItem) bound ()) q
        (fun _ q => Q q ∧ q.Steady False) OnlyShort :=
    ensures_iterate_of_step Pass.weight hb (ensures_of_ok (nextItem_of_eof (hQ q hq)) ⟨hq, hs⟩)
  rcases h with h | h
  · exact hlast h hp bound hb
  induction h generalizing bound with
  | @step p heof hshort hquit hnext ih =>
    refine ensures_iterate_of_step Pass.weight hb ?_
    rw [Ensures, nextItem_of_ne heof]
    have hsteady := (item_steady (fun _ _ => trivial) hp).and (ensures_self item)
    refine (ensures_bind _ _).2 (hsteady.mono ?_ ?_)
    · rintro ⟨⟩ q ⟨⟨hq, hw⟩, hok⟩
      have hawake := hquit q hok
      have hlt : (committed q).weight < p.weight := by
        have := hw.resolve_left (by simp [hawake])
        rwa [Pass.weight, committed, blocks_commit]
      rw [Ensures, itemEnd_of_not hawake]
      refine ⟨hlt, fun bound' hb' => ?_⟩
      by_cases hdone : Q (committed q)
      · exact hlast hdone (steady_commit hq) bound' hb'
      · exact ih q hok hq hdone (steady_commit hq) bound' hb'
    · exact fun e q he => hshort e q he.2

end Compile

open Compile

/-- **A text whose items lead to the end of the input** is compiled, unless a table is full, and so
is the end of the input. -/
theorem Session.exists_finish_of_comesTo {s : Session} {text : String} {R : Program → Prop}
    (hs : s.Consistent False)
    (h : Ensures advance (Pass.start s text) (fun _ p => ComesTo (Pass.Concludes R) p) OnlyShort)
    (hroom : ∀ e, (s.compile text).1 = .error e → ¬e.IsShortage) :
    ∃ status t u, s.compile text = (.ok status, t) ∧ t.finish = (.ok (), u) ∧ R u.program := by
  have hstart : (Pass.start s text).Steady False := hs.start False.elim
  have hadvance := advance_steady hstart (by simp [Pass.start])
  have hchunk : Ensures chunk (Pass.start s text)
      (fun _ q => q.Concludes R ∧ q.Steady False) OnlyShort := by
    rw [chunk, ensures_bind]
    refine (h.and hadvance).mono (fun _ p hp => ?_) fun _ _ => And.left
    refine iterate_of_comesTo (fun q hq => hq.eof) hp.1 hp.2 _ ?_
    rw [List.length_replicate]
    exact weight_le_itemBound p
  cases hrun : chunk (Pass.start s text) with
  | error e q =>
    obtain ⟨t, ht⟩ := compile_of_error hrun
    exact absurd (hchunk.error hrun) (hroom e (congrArg Prod.fst ht))
  | ok status q =>
    obtain ⟨hq, hsteady⟩ := hchunk.ok hrun
    obtain ⟨r, hr, hR⟩ := hq.closes hsteady
    refine ⟨status, q.toSession, _, compile_of_ok hrun, finish_of_closeAll hr, ?_⟩
    rwa [program_commit]

/-- A new session before a text. -/
theorem Session.here_start {options : Options} (hs : options.strictness = .lenient) {text : String}
    {ws : List Word} (hws : (readTokens .lenient text).map (·.token.word) = ws)
    (hclean : ws.all isClean = true) (ps : List Nat) :
    (Pass.start (new options) text).Here ps .idle [] 0 ((.newline, "") :: ws) where
  function := by
    have hstart : (Pass.start (new options) text).Steady False :=
      (consistent_new options).start False.elim
    obtain ⟨f, hf⟩ := hstart.stands
    refine ⟨f, hf.toStands, ?_⟩
    obtain rfl : ({ name := "(main)", defined := true } : Function) = f :=
      Option.some.inj hf.writing.function
    exact ⟨⟨[], .empty_nil, .nil, nofun⟩, rfl, rfl⟩
  lenient := hs
  outline := rfl
  words := by
    rw [Pass.words, Pass.rest, Pass.start, show (new options).strictness = .lenient from hs, ← hws]
    simp [Token.word]
  clean w hw := by
    rcases List.mem_cons.1 hw with rfl | hw
    · simp
    · simpa [isClean] using List.all_eq_true.1 hclean w hw
  awake := rfl

end DeskCalc
