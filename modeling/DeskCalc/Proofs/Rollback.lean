import DeskCalc.Proofs.Calls

/-!
# Going back after a failure

When a chunk is refused the session goes back to its checkpoint, which is only two sizes. What was
the main code at that time is still there, because nothing that a statement does touches code or
labels that were there before (`Draft.Retains`). So the main code is afterwards what it was at the
last moment at which an item had been completed with nothing open.

That moment is told here without the checkpoint: `Session.itemEnds` are the sessions just after each
item of a chunk, and `Session.History` follows the calls on a session and remembers the main code
of the last of them at which nothing was open.
-/

namespace DeskCalc

/-! ## Functions that grow -/

theorem LabelTable.ext_get? {t u : LabelTable} (h : ∀ i, t.get? i = u.get? i) : t = u := by
  cases t
  cases u
  congr 1
  exact Array.ext_getElem? h

namespace Function

/-- Code was written behind that of `f`, and the labels of `f` that had an offset kept it. -/
structure GrowsTo (f g : Function) : Prop where
  code : ∃ is, f.code.Writes is g.code
  labels : ∀ i offset, f.labels.get? i = some (.known offset) →
    g.labels.get? i = some (.known offset)

variable {B : Prop} {f g h : Function}

theorem GrowsTo.refl (f : Function) : f.GrowsTo f := ⟨⟨[], .nil⟩, fun _ _ => id⟩

theorem GrowsTo.trans (hfg : f.GrowsTo g) (hgh : g.GrowsTo h) : f.GrowsTo h := by
  obtain ⟨is, his⟩ := hfg.code
  obtain ⟨js, hjs⟩ := hgh.code
  exact ⟨⟨_, his.trans hjs⟩, fun i offset hi => hgh.labels i offset (hfg.labels i offset hi)⟩

/-- All labels of a settled function have an offset, so that none of them changes. -/
theorem GrowsTo.get?_eq (hfg : f.GrowsTo g) (hf : f.Settled B) {i : Nat} (hi : i < f.labels.size) :
    g.labels.get? i = f.labels.get? i := by
  have hget : f.labels.get? i = some f.labels.labels[i] := Array.getElem?_eq_getElem hi
  obtain ⟨offset, hl, -⟩ := hf.labels i _ hget
  rw [hl] at hget
  rw [hget, hfg.labels i offset hget]

/-- **The sizes of a settled function are enough to find it in what it grew to.** -/
theorem GrowsTo.cut_eq (hfg : f.GrowsTo g) (hf : f.Settled B) :
    (g.cut ⟨f.code.size, f.labels.size⟩).code = f.code ∧
      (g.cut ⟨f.code.size, f.labels.size⟩).labels = f.labels := by
  obtain ⟨is, his, -⟩ := hf.code
  obtain ⟨js, hjs⟩ := hfg.code
  refine ⟨his.truncate_eq hjs, LabelTable.ext_get? fun i => ?_⟩
  rw [labels_cut]
  split
  · next hi => exact hfg.get?_eq hf hi
  · next hi => exact (Array.getElem?_eq_none (Nat.le_of_not_lt hi)).symm

theorem GrowsTo.isPrefix (hfg : f.GrowsTo g) (hf : f.Settled B) :
    f.code.cells.toList <+: g.code.cells.toList ∧
      f.labels.labels.toList <+: g.labels.labels.toList := by
  obtain ⟨is, his⟩ := hfg.code
  refine ⟨his.prefix_cells, List.prefix_iff_getElem?.2 fun i hi => ?_⟩
  rw [Array.length_toList] at hi
  have hget : g.labels.labels[i]? = f.labels.labels[i]? := hfg.get?_eq hf hi
  rw [Array.getElem?_toList, hget, Array.getElem?_eq_getElem hi, Array.getElem_toList]

/-- There is a definition, and its code ends by returning. -/
def Returns (f : Function) : Prop :=
  f.defined = true ∧ f.code.lastOpcode? = some (if f.isVoid then .retVoid else .ret0)

end Function

/-! ## What items leave alone -/

namespace Draft

/-- From `d` to `e` the main code only grew, and every other function that does not receive code is
as it was, or it was completely defined, or it is new and has no code. Functions whose names are
`anew` may have begun, and a function that received code has ended. -/
structure Retains (anew : String → Prop) (d e : Draft) : Prop where
  grows : d.program.Grows e.program
  main : d.program.main.GrowsTo e.program.main
  target : e.target = Program.mainId ∨ e.target = d.target ∨ ∃ g, e.function? = some g ∧ anew g.name
  others : ∀ i g, i ≠ Program.mainId → i ≠ e.target → e.program.function? i = some g →
    (i ≠ d.target ∧ d.program.function? i = some g) ∨ g.Returns ∧ (i = d.target ∨ anew g.name) ∨
      d.program.function? i = none ∧ g = { name := g.name }

variable {d e e' : Draft} {anew anew' : String → Prop} {n : Nat} {m : Function}

theorem Retains.refl (d : Draft) : d.Retains anew d where
  grows := .refl _
  main := .refl _
  target := .inr (.inl rfl)
  others _ _ _ hi hg := .inl ⟨hi, hg⟩

theorem Retains.mono (h : d.Retains anew e) (hnew : ∀ name, anew name → anew' name) :
    d.Retains anew' e where
  grows := h.grows
  main := h.main
  target := h.target.imp_right (.imp_right (.imp fun _ hg => ⟨hg.1, hnew _ hg.2⟩))
  others i g hmain hi hg :=
    (h.others i g hmain hi hg).imp_right (.imp_left fun hg => ⟨hg.1, hg.2.imp_right (hnew _)⟩)

theorem Retains.trans (h : d.Retains anew e) (h' : e.Retains anew e') : d.Retains anew e' := by
  -- what receives code in `e` did so in `d`, or it has begun since
  have htarget : e.target = Program.mainId ∨ e.target = d.target ∨
      ∃ g, e'.program.function? e.target = some g ∧ anew g.name := by
    refine h.target.imp_right (.imp_right ?_)
    rintro ⟨f, hf, hnew⟩
    obtain ⟨g, hg, hname⟩ := h'.grows.names e.target f hf
    exact ⟨g, hg, hname ▸ hnew⟩
  refine ⟨h.grows.trans h'.grows, h.main.trans h'.main, ?_, fun i g hmain hi hg => ?_⟩
  · rcases h'.target with hend | hsame | hnew
    · exact .inl hend
    · rw [function?, hsame]
      exact htarget
    · exact .inr (.inr hnew)
  · rcases h'.others i g hmain hi hg with ⟨hi, hg⟩ | ⟨hreturns, rfl | hnew⟩ | ⟨hnone, hempty⟩
    · exact h.others i g hmain hi hg
    · refine .inr (.inl ⟨hreturns, (htarget.resolve_left hmain).imp_right ?_⟩)
      rintro ⟨k, hk, hnew⟩
      cases hk.symm.trans hg
      exact hnew
    · exact .inr (.inl ⟨hreturns, .inr hnew⟩)
    · exact .inr (.inr ⟨h.grows.function?_eq_none hnone, hempty⟩)

theorem Reworks.retains (h : d.Reworks e) : d.Retains anew e where
  grows := h.grows
  target := .inr (.inl h.target)
  main := by
    by_cases htarget : d.target = Program.mainId
    · obtain ⟨f, g, is, hf, hg, hcode, hlabels, -⟩ := h.function
      rw [function?, htarget] at hf
      rw [function?, h.target, htarget] at hg
      cases hf
      cases hg
      exact ⟨⟨is, hcode⟩, hlabels⟩
    · have hmain := h.others Program.mainId _ (Ne.symm htarget) rfl
      rw [show e.program.main = d.program.main from Option.some.inj hmain]
      exact .refl _
  others i g _ hi hg := by
    rw [h.target] at hi
    cases hf : d.program.function? i with
    | none => exact .inr (.inr ⟨rfl, h.fresh i g hf hg⟩)
    | some f =>
      cases (h.others i f hi hf).symm.trans hg
      exact .inl ⟨hi, rfl⟩

theorem Finishes.retains (h : d.Finishes e) : d.Retains anew e := by
  obtain ⟨f, P, hf, hdefined, hP, rfl⟩ := h
  obtain ⟨f', c, hf', hc, hPf⟩ := hP.written
  cases hf.symm.trans hf'
  refine ⟨hP.grows, ?_, .inl rfl, fun i g _ _ hg => ?_⟩
  · by_cases htarget : d.target = Program.mainId
    · rw [htarget] at hf' hPf
      cases hf'
      rw [show P.main = _ from Option.some.inj hPf]
      exact ⟨⟨_, hc⟩, fun _ _ => id⟩
    · have hmain := hP.others Program.mainId _ (Ne.symm htarget) rfl
      rw [show P.main = d.program.main from Option.some.inj hmain]
      exact .refl _
  · by_cases hi : i = d.target
    · subst hi
      cases hPf.symm.trans hg
      obtain ⟨c', line, -, -, rfl⟩ := (show f.code.Writes ([] ++ [_]) c from hc).of_snoc
      exact .inr (.inl ⟨⟨hdefined, by simp⟩, .inl rfl⟩)
    · cases hk : d.program.function? i with
      | none => exact .inr (.inr ⟨rfl, hP.fresh i g hk hg⟩)
      | some k =>
        cases (hP.others i k hi hk).symm.trans hg
        exact .inl ⟨hi, rfl⟩

theorem Begins.retains (h : d.Begins anew e) : d.Retains anew e := by
  cases h with
  | @intro id f hmain _ _ hid hf hnew isVoid =>
    refine ⟨.put, ?_, .inr (.inr ⟨{ f.clear with isVoid := isVoid }, ?_, hnew⟩),
      fun i g himain hi hg => ?_⟩
    · rw [Program.main_modifyFunction, if_neg hid]
      exact .refl _
    · exact Program.function?_put hf rfl
    · rw [Program.function?_modifyFunction, if_neg hi] at hg
      exact .inl ⟨hmain ▸ himain, hg⟩

/-- **What changes leave alone.** -/
theorem Edits.retains (h : d.Edits anew n e) : d.Retains anew e := by
  have hsteps := h.steps
  clear h
  induction hsteps with
  | refl => exact .refl d
  | tail _ hstep ih =>
    rcases hstep with hstep | hstep | hstep <;> exact ih.trans hstep.retains

/-- The checkpoint stands where the main code was `m`, with nothing open. -/
structure Marks (d : Draft) (m : Function) : Prop where
  settled : m.Settled False
  grows : m.GrowsTo d.program.main
  checkpoint : d.checkpoint = ⟨m.code.size, m.labels.size⟩

theorem Marks.retains (h : d.Marks m) (hretains : d.Retains anew e)
    (hcheckpoint : e.checkpoint = d.checkpoint) : e.Marks m :=
  ⟨h.settled, h.grows.trans hretains.main, hcheckpoint.trans h.checkpoint⟩

end Draft

/-! ## The items of a chunk -/

/-- The main code at the last of some moments at which nothing was open, or `m` if there is none. -/
def Session.lastReady (m : Function) (moments : List Session) : Function :=
  moments.foldl (fun m s => if s.isReady then s.program.main else m) m

namespace Compile

variable {p : Pass}

/-- The sessions just after each item that the rest of a chunk completes, at most `n` of them. A
`quit` ends the chunk, so that it completes nothing. -/
def itemEnds : Nat → Pass → List Session
  | 0, _ => []
  | n + 1, p =>
    if p.token.kind = .eof then []
    else
      match item p with
      | .error _ _ => []
      | .ok _ q =>
        if q.quitting then []
        else q.toSession :: itemEnds n { q with toSession := q.toSession.commit }

theorem itemEnd_of_quitting (h : p.quitting = true) : itemEnd p = .ok (.inr .quit) p := by
  change (if p.quitting then _ else _ : Compile _) p = _
  rw [if_pos h]
  rfl

theorem itemEnd_of_not (h : p.quitting = false) : itemEnd p = .ok (.inl ()) (committed p) := by
  change (if p.quitting then _ else _ : Compile _) p = _
  rw [if_neg (by simp [h])]
  rfl

theorem nextItem_of_eof (h : p.token.kind = .eof) : nextItem p = .ok (.inr p.status) p := by
  change (if p.token.kind == .eof then _ else _ : Compile _) p = _
  rw [if_pos (by simp [h])]
  rfl

theorem nextItem_of_ne (h : p.token.kind ≠ .eof) : nextItem p = (item >>= fun _ => itemEnd) p := by
  rw [nextItem]
  change (if p.token.kind == .eof then _ else _ : Compile _) p = _
  rw [if_neg (by simpa using h)]

end Compile

/-- The sessions just after each item that a chunk completes. -/
def Session.itemEnds (s : Session) (text : String) : List Session :=
  match Compile.advance (Pass.start s text) with
  | .error _ _ => []
  | .ok _ p => Compile.itemEnds (Compile.itemBound p + 1) p

/-- The pass over `text` is where an item begins, or the end of the text. -/
def Session.ItemAt (s : Session) (text : String) (p : Pass) : Prop :=
  ∃ p₀, Compile.advance (Pass.start s text) = .ok () p₀ ∧
    Compile.Repeats (fun _ : Unit => Compile.nextItem) () p₀ () p

theorem Session.ItemAt.next {s : Session} {text : String} {p q : Pass} (h : s.ItemAt text p)
    (hq : Compile.nextItem p = .ok (.inl ()) q) : s.ItemAt text q :=
  h.imp fun _ hp => ⟨hp.1, hp.2.next hq⟩

/-- The header of a function of this name stands at an item of the text. -/
def Session.Heads (s : Session) (text name : String) : Prop := ∃ p, s.ItemAt text p ∧ p.Heads name

/-- Since `s₀` other functions were retained but for those of `anew`, and the main code was first `m₀`
and then `m` when nothing was open. -/
structure Pass.Since (s₀ : Session) (anew : String → Prop) (m₀ m : Function) (p : Pass) : Prop where
  retains : s₀.draft.Retains anew p.draft
  marks : p.draft.Marks m
  first : m₀.GrowsTo m

/-- The same between two items. -/
structure Pass.Stage (s₀ : Session) (anew : String → Prop) (m₀ m : Function) (p : Pass) : Prop
    extends Pass.Since s₀ anew m₀ m p where
  steady : p.Steady False

namespace Compile

variable {s₀ : Session} {text : String} {anew anew' : String → Prop} {m₀ m : Function} {p q : Pass}

/-- Where nothing is open the main code is settled. -/
theorem settled_of_isReady (h : p.Steady False) (hready : p.isReady = true) :
    p.program.main.Settled False := by
  obtain ⟨f, hf⟩ := h.stands
  simp only [Session.isReady, Bool.and_eq_true, beq_iff_eq] at hready
  obtain ⟨hexits, -, -⟩ := h.balanced.of_isIdle hready.2
  have hfun := hf.writing.function
  rw [hready.1] at hfun
  have hmain : p.program.main = f := Option.some.inj hfun
  exact hmain ▸ hf.writing.settled hexits

/-- **What every item keeps, a chunk keeps.** Where the source is refused in the middle of an item,
only `J` is left of it. -/
theorem chunk_keeps {I J : Draft → Prop} (hitem : ∀ anew d e, I d → d.Edits anew 0 e → I e)
    (hbroken : ∀ anew d e n, I d → d.Edits anew n e → J e)
    (hcommit : ∀ q : Pass, q.Steady False → q.isReady = true → I q.draft →
      I { q.draft with checkpoint := ⟨q.program.main.code.size, q.program.main.labels.size⟩ })
    (h : p.Steady False) (heof : p.token.kind ≠ .eof) (hI : I p.draft) :
    Ensures chunk p (fun _ q => I q.draft) (fun e q => e.IsRefusal → J q.draft) := by
  have hcommitted {q : Pass} (hsteady : q.Steady False) (hq : I q.draft) :
      I (Session.draft q.toSession.commit) := by
    unfold Session.commit
    split
    · next hready => exact hcommit q hsteady hready hq
    · exact hq
  have hnext {p : Pass} (h : p.Steady False) (hI : I p.draft) :
      Ensures nextItem p (fun r q => I q.draft ∧ (r.isLeft = true → q.Steady False))
        (fun e q => e.IsRefusal → J q.draft) := by
    simp only [nextItem, itemEnd, ensures_bind, ensures_isAt, ensures_ite, ensures_get, ensures_pure]
    split
    · exact ⟨hI, by simp⟩
    · refine (item_edits h).mono ?_ ?_
      · rintro - q ⟨hq, hedits⟩
        have hIq := hitem _ _ _ hI hedits
        split
        · exact ⟨hIq, by simp⟩
        · rw [ensures_modify]
          exact ⟨hcommitted hq hIq, fun _ => steady_commit hq⟩
      · rintro e q ⟨-, n, hn⟩ _
        exact hbroken _ _ _ n hI hn
  have hitems (bound : List Unit) {p : Pass} (h : p.Steady False) (hI : I p.draft) :
      Ensures (iterate (fun (_ : Unit) => nextItem) bound ()) p (fun _ q => I q.draft)
        (fun e q => e.IsRefusal → J q.draft) := by
    induction bound generalizing p with
    | nil =>
      refine Ensures.bind (hnext h hI) ?_ fun _ _ => id
      rintro (_ | status) q ⟨hq, -⟩
      · rintro ⟨_, ⟨⟩⟩
      · exact hq
    | cons _ bound ih =>
      refine Ensures.bind (hnext h hI) ?_ fun _ _ => id
      rintro (_ | status) q ⟨hq, hsteady⟩
      · exact ih (hsteady rfl) hq
      · exact hq
  rw [chunk, ensures_bind]
  refine (advance_edits (fun _ => False) h heof).mono ?_ ?_
  · rintro - q ⟨hq, hpq⟩
    rw [ensures_bind, ensures_get]
    exact hitems _ hq (hitem _ _ _ hI hpq)
  · rintro e q ⟨-, n, hn⟩ _
    exact hbroken _ _ _ n hI hn

/-- An item that is completed with nothing open moves the checkpoint. -/
theorem stage_commit (h : p.Stage s₀ anew m₀ m) :
    Pass.Stage s₀ anew m₀ (if p.isReady then p.program.main else m)
      { p with toSession := p.toSession.commit } := by
  have hsteady := steady_commit h.steady
  unfold Session.commit at hsteady ⊢
  split
  · next hready =>
    rw [if_pos hready] at hsteady
    have hset := settled_of_isReady h.steady hready
    exact {
      retains := { h.retains with }
      marks := ⟨hset, .refl _, rfl⟩
      first := h.first.trans h.marks.grows
      steady := hsteady }
  · exact h

theorem since_edits (h : p.Since s₀ anew m₀ m) {n : Nat} (hq : p.draft.Edits anew' n q.draft)
    (hnew : ∀ name, anew' name → anew name) : q.Since s₀ anew m₀ m :=
  ⟨h.retains.trans (hq.retains.mono hnew), h.marks.retains hq.retains hq.checkpoint_eq, h.first⟩

/-- **One item.** -/
theorem item_stage (h : p.Stage s₀ anew m₀ m) (hnew : ∀ name, p.Heads name → anew name) :
    Ensures item p (fun _ q => q.Stage s₀ anew m₀ m) (fun _ q => q.Since s₀ anew m₀ m) := by
  refine (item_edits h.steady).mono ?_ ?_
  · rintro - q ⟨hq, hedits⟩
    exact ⟨since_edits h.toSince hedits hnew, hq⟩
  · rintro e q ⟨-, n, hn⟩
    exact since_edits h.toSince hn hnew

theorem nextItem_stage (h : p.Stage s₀ anew m₀ m) (hnew : ∀ name, p.Heads name → anew name) :
    Ensures nextItem p
      (fun r q =>
        match r with
        | .inl _ => ∃ t : Session, q.Stage s₀ anew m₀ (if t.isReady then t.program.main else m) ∧
            ∀ n, itemEnds (n + 1) p = t :: itemEnds n q
        | .inr _ => q.Stage s₀ anew m₀ m ∧ ∀ n, itemEnds n p = [])
      (fun _ q => q.Since s₀ anew m₀ m ∧ ∀ n, itemEnds n p = []) := by
  by_cases heof : p.token.kind = .eof
  · have hends (n : Nat) : itemEnds n p = [] := by cases n <;> simp [itemEnds, heof]
    simp only [nextItem, ensures_bind, ensures_isAt, heof, beq_self_eq_true, if_true, ensures_get,
      ensures_pure]
    exact ⟨h, hends⟩
  simp only [nextItem, itemEnd, ensures_bind, ensures_isAt, beq_iff_eq, heof, if_false]
  have hitem := item_stage h hnew
  cases hm : item p with
  | error e q =>
    have hends (n : Nat) : itemEnds n p = [] := by cases n <;> simp [itemEnds, heof, hm]
    simp only [Ensures, hm]
    exact ⟨hitem.error hm, hends⟩
  | ok _ q =>
    refine ensures_of_ok hm ?_
    have hq := hitem.ok hm
    rw [ensures_get, ensures_ite]
    split
    · next hquit =>
      have hends (n : Nat) : itemEnds n p = [] := by cases n <;> simp [itemEnds, heof, hm, hquit]
      exact ⟨hq, hends⟩
    · next hquit =>
      rw [ensures_bind, ensures_modify, ensures_pure]
      exact ⟨q.toSession, stage_commit hq, fun n => by
        simp [itemEnds, committed, heof, hm, hquit]⟩

/-- **The items of a chunk**, one after the other. -/
theorem items_stage (bound : List Unit) (h : p.Stage s₀ (s₀.Heads text) m₀ m)
    (hat : s₀.ItemAt text p) :
    Ensures (iterate (fun (_ : Unit) => nextItem) bound ()) p
      (fun _ q => q.Stage s₀ (s₀.Heads text) m₀
        (Session.lastReady m (itemEnds (bound.length + 1) p)))
      (fun e q => e.IsRefusal → q.Since s₀ (s₀.Heads text) m₀
        (Session.lastReady m (itemEnds (bound.length + 1) p))) := by
  have hitem := nextItem_stage h fun name hname => ⟨p, hat, hname⟩
  induction bound generalizing p m with
  | nil =>
    refine Ensures.bind hitem ?_ ?_
    · rintro (_ | status) q hq
      · rintro ⟨_, ⟨⟩⟩
      · rw [hq.2]
        exact hq.1
    · rintro e q ⟨hq, hends⟩
      rw [hends]
      exact fun _ => hq
  | cons c bound ih =>
    refine Ensures.bind ((ensures_self nextItem).and hitem) ?_ ?_
    · rintro (_ | status) q ⟨hm, hq⟩
      · obtain ⟨t, hq, hends⟩ := hq
        have hat' := hat.next hm
        rw [List.length_cons, hends]
        exact ih hq hat' (nextItem_stage hq fun name hname => ⟨q, hat', hname⟩)
      · rw [hq.2]
        exact hq.1
    · rintro e q ⟨-, hq, hends⟩
      rw [hends]
      exact fun _ => hq

/-- **A whole chunk.** -/
theorem chunk_stage {s : Session} (h : (Pass.start s text).Stage s (s.Heads text) m m) :
    Ensures chunk (Pass.start s text)
      (fun _ q => q.Stage s (s.Heads text) m (Session.lastReady m (s.itemEnds text)))
      (fun e q => e.IsRefusal →
        q.Since s (s.Heads text) m (Session.lastReady m (s.itemEnds text))) := by
  have hadvance := advance_edits (s.Heads text) h.steady (by simp [Pass.start])
  rw [chunk, ensures_bind]
  cases hm : advance (Pass.start s text) with
  | error e q =>
    simp only [Ensures, hm, Session.itemEnds]
    obtain ⟨-, n, hn⟩ := hadvance.error hm
    exact fun _ => since_edits h.toSince hn fun _ => id
  | ok _ q =>
    refine ensures_of_ok hm ?_
    obtain ⟨hsteady, hq⟩ := hadvance.ok hm
    have hstage : q.Stage s (s.Heads text) m m := ⟨since_edits h.toSince hq fun _ => id, hsteady⟩
    rw [ensures_bind, ensures_get]
    have hitems := items_stage (List.replicate (itemBound q) ()) hstage ⟨q, hm, .refl⟩
    simpa only [Session.itemEnds, hm, List.length_replicate] using hitems

/-- **The end of the input.** -/
theorem inputEnd_stage {s : Session} (h : p.Stage s anew m m) (heof : p.token.kind ≠ .eof) :
    Ensures inputEnd p (fun _ q => q.Stage s anew m m)
      (fun e q => e.IsRefusal → q.Since s anew m m) := by
  refine (inputEnd_edits anew h.steady heof).mono ?_ ?_
  · rintro - q ⟨hq, hedits⟩
    exact ⟨since_edits h.toSince hedits fun _ => id, hq⟩
  · rintro e q ⟨-, n, hn⟩ _
    exact since_edits h.toSince hn fun _ => id

end Compile

/-! ## The calls on a session -/

namespace Session

/-- Between two calls the main code was `m` at the last moment at which an item had been completed
with nothing open. -/
structure Tracks (s : Session) (m : Function) : Prop where
  consistent : s.Consistent False
  marks : s.draft.Marks m

variable {s t : Session} {m : Function} {texts : String → Prop} {c : Call}

theorem Tracks.steady (h : s.Tracks m) (text : String) : (Pass.start s text).Steady False :=
  h.consistent.start False.elim

theorem Tracks.start (h : s.Tracks m) (anew : String → Prop) (text : String) :
    (Pass.start s text).Stage s anew m m where
  retains := .refl _
  marks := h.marks
  first := .refl _
  steady := h.steady text

theorem tracks_of_stage {p : Pass} {anew : String → Prop} {m₀ : Function}
    (h : p.Stage s anew m₀ m) : p.toSession.Tracks m :=
  ⟨h.steady.consistent, h.marks⟩

/-- **Going back gives the main code that the checkpoint marks.** -/
theorem main_reset (h : s.draft.Marks m) :
    s.reset.program.main.code = m.code ∧ s.reset.program.main.labels = m.labels := by
  rw [main_reset_eq_cut, show s.checkpoint = _ from h.checkpoint]
  exact h.grows.cut_eq h.settled

theorem tracks_reset (hrec : Recoverable False s) (h : s.draft.Marks m) : s.reset.Tracks m := by
  obtain ⟨hcode, hlabels⟩ := main_reset h
  refine ⟨consistent_reset hrec, h.settled, ⟨⟨[], ?_⟩, ?_⟩,
    (checkpoint_reset s).trans h.checkpoint⟩
  · rw [show s.reset.draft.program.main.code = _ from hcode]
    exact .nil
  · rw [show s.reset.draft.program.main.labels = _ from hlabels]
    exact fun _ _ => id

theorem tracks_compile (h : s.Tracks m) (text : String) :
    (s.compile text).2.Tracks (lastReady m (s.itemEnds text)) ∧
      m.GrowsTo (lastReady m (s.itemEnds text)) := by
  have hchunk := Compile.chunk_stage (h.start (s.Heads text) text)
  rcases compile_cases h.consistent False.elim with ⟨status, q, hm, heq⟩ | ⟨d, q, hm, hrec, heq⟩ <;>
    rw [heq]
  · have hq := hchunk.ok hm
    exact ⟨tracks_of_stage hq, hq.first⟩
  · have hq := hchunk.error hm ⟨d, rfl⟩
    exact ⟨tracks_reset hrec hq.marks, hq.first⟩

end Session

/-- The main code at the last moment at which an item had been completed with nothing open, if it
was `m` before the call. The end of the input completes an `if` that waits for its `else`. -/
def Call.lastComplete (s : Session) (m : Function) : Call → Function
  | compile text => Session.lastReady m (s.itemEnds text)
  | finish =>
    match s.finish with
    | (.ok (), t) => Session.lastReady m [t]
    | (.error _, _) => m
  | reset | takeWarnings | compileAnswer _ => m

namespace Session

variable {s t : Session} {m : Function} {texts : String → Prop} {c : Call}

theorem tracks_finish (h : s.Tracks m) :
    s.finish.2.Tracks (Call.finish.lastComplete s m) ∧
      m.GrowsTo (Call.finish.lastComplete s m) := by
  have hstart : (Pass.start s "").token.kind ≠ .eof := by simp [Pass.start]
  have hstage := Compile.inputEnd_stage (h.start (fun _ => False) "") hstart
  unfold Call.lastComplete
  rcases finish_cases h.consistent with ⟨q, hm, heq⟩ | ⟨d, q, hm, hrec, heq⟩ <;> rw [heq]
  · have hq := Compile.stage_commit (hstage.ok hm)
    have hready : q.commit.isReady = q.isReady := by
      unfold commit
      split <;> rfl
    have hmain : q.commit.program.main = q.program.main := by
      unfold commit
      split <;> rfl
    simp only [lastReady, List.foldl_cons, List.foldl_nil, hready, hmain]
    exact ⟨tracks_of_stage hq, hq.first⟩
  · exact ⟨tracks_reset hrec (hstage.error hm ⟨d, rfl⟩).marks, .refl m⟩

/-- An answer goes to a function of its own. -/
theorem main_compileAnswer (s : Session) (text : String) :
    (s.compileAnswer text).2.program.main = s.program.main ∧
      (s.compileAnswer text).2.checkpoint = s.checkpoint ∧
      (s.compileAnswer text).2.target = Program.mainId := by
  obtain ⟨u, is, q, hq, ⟨-, heq⟩ | ⟨d, -, heq⟩⟩ := compileAnswer_cases s text <;> rw [heq] <;>
    exact ⟨Option.some.inj (hq.program.others Program.mainId s.program.main nofun rfl),
      hq.checkpoint, rfl⟩

/-- **What a call keeps**, and that the main code only grows from one such moment to the next. -/
theorem tracks_call (h : s.Tracks m) (hc : c.Allowed texts s) :
    (c.run s).2.Tracks (c.lastComplete s m) ∧ m.GrowsTo (c.lastComplete s m) := by
  cases c with
  | compile text => exact tracks_compile h text
  | finish => exact tracks_finish h
  | reset => exact ⟨tracks_reset h.consistent.recoverable h.marks, .refl m⟩
  | takeWarnings =>
    have hs : s.takeWarnings.2.Consistent False := Call.consistent h.consistent hc False.elim
    exact ⟨⟨hs, ⟨h.marks.settled, h.marks.grows, h.marks.checkpoint⟩⟩, .refl m⟩
  | compileAnswer text =>
    obtain ⟨hmain, hcheckpoint, -⟩ := main_compileAnswer s text
    refine ⟨⟨Call.consistent h.consistent hc False.elim, h.marks.settled, ?_,
      hcheckpoint.trans h.marks.checkpoint⟩, .refl m⟩
    show m.GrowsTo (s.compileAnswer text).2.program.main
    rw [hmain]
    exact h.marks.grows

/-- A session that comes out of a new one by calls, and the main code at the last moment at which
an item had been completed with nothing open. An answer comes only while no function is being
defined. -/
inductive History (texts : String → Prop) : Session → Function → Prop
  | new (options : Options) : History texts (new options) (new options).program.main
  | call {s : Session} {m : Function} (h : History texts s m) {c : Call} (hc : c.Allowed texts s) :
      History texts (c.run s).2 (c.lastComplete s m)

theorem History.tracks (h : s.History texts m) : s.Tracks m := by
  induction h with
  | new options =>
    exact ⟨consistent_new options, Function.settled_of_empty rfl rfl, .refl _, rfl⟩
  | call _ hc ih => exact (tracks_call ih hc).1

/-- Later calls keep what the main code was. -/
theorem Tracks.leads (h : s.Tracks m) (ht : s.Leads texts t) :
    ∃ m', t.Tracks m' ∧ m.GrowsTo m' := by
  induction ht with
  | refl => exact ⟨m, h, .refl m⟩
  | call _ hc ih =>
    obtain ⟨m', hm', hgrows⟩ := ih
    obtain ⟨hnext, hgrows'⟩ := tracks_call hm' hc
    exact ⟨_, hnext, hgrows.trans hgrows'⟩

end Session

/-! ## Refused chunks -/

/-- The function has been defined to its end: its code is made of instructions and ends by
returning, and all its labels lie where an instruction starts or at the end. -/
structure Function.Complete (f : Function) : Prop where
  code : ∃ is, f.code.Holds is
  returns : f.defined = true ∧
    f.code.instructions.getLast?.map (·.op) = some (if f.isVoid then .retVoid else .ret0)
  labels : ∀ i l, f.labels.get? i = some l → ∃ offset, l = .known offset ∧
    (offset ∈ f.code.instructions.map (·.offset) ∨ offset = f.code.size)

/-- A function that returns at its end and is settled is complete. -/
theorem Function.Settled.complete {B : Prop} {f : Function} (h : f.Settled B)
    (hreturns : f.Returns) : f.Complete where
  code := h.code.imp fun _ => And.left
  returns := by
    obtain ⟨_, his, -⟩ := h.code
    exact ⟨hreturns.1, his.last_eq.2 ▸ hreturns.2⟩
  labels i l hl := by
    obtain ⟨offset, hknown, hrest⟩ := h.labels i l hl
    exact ⟨offset, hknown, hrest.boundary⟩

/-- The session `r` is `s` with the main code `m`, after the chunk `text` was refused at `failed`. -/
structure Session.RolledBack (s : Session) (text : String) (failed : Session) (m : Function)
    (r : Session) : Prop where
  /-- The bytes of the main code, their lines and the place of the last instruction. -/
  code : r.program.main.code = m.code
  labels : r.program.main.labels = m.labels
  blocks : r.blocks = {}
  exits : r.exits = []
  continues : r.continues = []
  operators : r.operators = []
  target : r.target = Program.mainId
  autoAllowed : r.autoAllowed = false
  /-- The function that was being defined, since before the chunk or from one of its items on, has
  neither a definition nor code, labels or locals. -/
  abandoned : failed.target ≠ Program.mainId → ∃ name,
    r.program.function? failed.target = some { name := name } ∧
      (failed.target = s.target ∨ s.Heads text name)
  /-- The other functions are as before the chunk, or the chunk has defined them to their end, whose
  definition was open before it or begins at one of its items, or they are new and have only been
  called. -/
  others : ∀ i f, i ≠ Program.mainId → i ≠ failed.target → r.program.function? i = some f →
    s.program.function? i = some f ∨ f.Complete ∧ (i = s.target ∨ s.Heads text f.name) ∨
      s.program.function? i = none ∧ f = { name := f.name }
  /-- No function is lost. -/
  names : ∀ i f, s.program.function? i = some f →
    ∃ g, r.program.function? i = some g ∧ g.name = f.name
  vars : s.program.vars.entries.toList <+: r.program.vars.entries.toList
  arrays : s.program.arrays.entries.toList <+: r.program.arrays.entries.toList
  constants : s.program.constants.entries.toList <+: r.program.constants.entries.toList

theorem Table.isPrefix_of_get? {α : Type} {t u : Table α}
    (h : ∀ i a, t.get? i = some a → u.get? i = some a) :
    t.entries.toList <+: u.entries.toList := by
  refine List.prefix_iff_getElem?.2 fun i hi => ?_
  rw [Array.length_toList] at hi
  rw [Array.getElem?_toList, Array.getElem_toList]
  exact h i _ (Array.getElem?_eq_getElem hi)

namespace Session

variable {s t : Session} {m : Function} {texts : String → Prop} {c : Call}

/-- Going back changes the main code and the function that is being defined. -/
theorem function?_reset (s : Session) {i : Nat} (hi : i ≠ Program.mainId) :
    s.reset.program.function? i =
      if i = s.target then
        (s.program.function? i).map fun f => { f.clear with defined := false }
      else s.program.function? i := by
  have hsame : s.reset.program.function? i = s.abandonDefinition.program.function? i := by
    rcases i with _ | _ | i
    · exact absurd rfl hi
    · rfl
    · rfl
  rw [hsame]
  unfold abandonDefinition
  split
  · next hmain => rw [if_neg (hmain ▸ hi)]
  · exact Program.function?_modifyFunction _ _ _ _

/-- Going back leaves the tables as they are. -/
theorem tables_reset (s : Session) : s.reset.program.vars = s.program.vars ∧
    s.reset.program.arrays = s.program.arrays ∧ s.reset.program.constants = s.program.constants := by
  simp only [reset, rollBack, abandonDefinition]
  split
  · exact ⟨rfl, rfl, rfl⟩
  · simp

theorem rolledBack_reset {text : String} {failed : Session} (hrec : Recoverable False failed)
    (hmarks : failed.draft.Marks m) (hretains : s.draft.Retains (s.Heads text) failed.draft) :
    s.RolledBack text failed m failed.reset := by
  obtain ⟨hcode, hlabels⟩ := main_reset hmarks
  obtain ⟨hvars, harrays, hconstants⟩ := tables_reset failed
  exact {
    code := hcode
    labels := hlabels
    blocks := rfl
    exits := rfl
    continues := rfl
    operators := rfl
    target := target_reset failed
    autoAllowed := rfl
    abandoned := fun hne => by
      obtain ⟨f, hf⟩ := hrec.function
      refine ⟨f.name, ?_, (hretains.target.resolve_left hne).imp_right ?_⟩
      · rw [function?_reset failed hne, if_pos rfl, hf]
        rfl
      · rintro ⟨g, hg, hnew⟩
        cases hf.symm.trans hg
        exact hnew
    others := fun i f hmain hi hf => by
      rw [function?_reset failed hmain, if_neg hi] at hf
      rcases hretains.others i f hmain hi hf with ⟨-, hold⟩ | ⟨hreturns, hdefined⟩ | hfresh
      · exact .inl hold
      · exact .inr (.inl ⟨(hrec.others i f hi hmain hf).complete hreturns, hdefined⟩)
      · exact .inr (.inr hfresh)
    names := fun i f hf => by
      obtain ⟨g, hg, hname⟩ := hretains.grows.names i f hf
      by_cases hmain : i = Program.mainId
      · subst hmain
        cases hg
        exact ⟨_, rfl, by rw [main_reset_eq_cut]; exact hname⟩
      · rw [function?_reset failed hmain]
        split
        · exact ⟨_, congrArg _ hg, hname⟩
        · exact ⟨g, hg, hname⟩
    vars := hvars ▸ Table.isPrefix_of_get? hretains.grows.vars
    arrays := harrays ▸ Table.isPrefix_of_get? hretains.grows.arrays
    constants := hconstants ▸ Table.isPrefix_of_get? hretains.grows.constants }

/-- **A chunk that is refused is taken back** to the last moment at which an item had been completed
with nothing open, in this chunk or before it. What the main code and its labels were at such a
moment stays there, whatever is called later, an answer inside a definition excepted. -/
theorem refused_chunk_rolledBack (h : s.History texts m) :
    (∀ text e, (s.compile text).1 = .error e →
      s.RolledBack text (s.run text Compile.chunk).2 (lastReady m (s.itemEnds text))
        (s.compile text).2) ∧
    ∀ t, s.Leads texts t →
      m.code.cells.toList <+: t.program.main.code.cells.toList ∧
      m.labels.labels.toList <+: t.program.main.labels.labels.toList := by
  have hs := h.tracks
  refine ⟨fun text e he => ?_, fun t ht => ?_⟩
  · obtain ⟨hrefused, q, hm, hrec, hreset⟩ := isRefusal_of_compile hs.consistent False.elim he
    have hq := (Compile.chunk_stage (hs.start (s.Heads text) text)).error hm hrefused
    rw [hreset, run, hm]
    exact rolledBack_reset hrec hq.marks hq.retains
  · obtain ⟨m', hm', hgrows⟩ := hs.leads ht
    exact (hgrows.trans hm'.marks.grows).isPrefix hs.marks.settled

/-- A statement, and an `if` that may still get its `else`. -/
def openIf : Call := .compile "x = 1\nif (x) y = 2\n"

/-- The session that waits for the `else`. -/
def waitingIf : Session := (openIf.run (new {})).2

/-- The main code before that `if`. -/
def beforeIf : Function := openIf.lastComplete (new {}) (new {}).program.main

/-- A definition and a statement are complete, and a loop breaks off. -/
def brokenLoop : String := "define f(x) \x7b return (x) \x7d\nz = 3\nwhile (z) \x7b\nz -= 1\n)\n"

theorem brokenLoop_rolledBack :
    waitingIf.History (fun _ => True) beforeIf ∧
      (waitingIf.run brokenLoop Compile.chunk).2.program.main.code.size = 32 ∧
      (lastReady beforeIf (waitingIf.itemEnds brokenLoop)).code.size = 21 ∧
      waitingIf.RolledBack brokenLoop (waitingIf.run brokenLoop Compile.chunk).2
        (lastReady beforeIf (waitingIf.itemEnds brokenLoop)) (waitingIf.compile brokenLoop).2 := by
  have hhistory : waitingIf.History (fun _ => True) beforeIf :=
    .call (c := openIf) (.new {}) trivial
  have hfailed : (waitingIf.compile brokenLoop).1.toOption = none := by decide +kernel
  refine ⟨hhistory, by decide +kernel, by decide +kernel, ?_⟩
  cases he : (waitingIf.compile brokenLoop).1 with
  | ok status =>
    rw [he] at hfailed
    cases hfailed
  | error e => exact (refused_chunk_rolledBack hhistory).1 brokenLoop e he

end Session

end DeskCalc
