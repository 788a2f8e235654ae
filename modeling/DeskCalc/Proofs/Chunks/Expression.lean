import DeskCalc.Proofs.Chunks.Ahead
import DeskCalc.Proofs.Counters
import DeskCalc.Proofs.Quiet

/-!
# Expressions of two passes

An expression is compiled in the same way whatever stands behind its chunk (`chunkwise`), until the
end of the chunk is met. An expression inside another one skips the line feeds behind it, and so it
may come to the end; but then something is missing behind it, and the chunk is refused. The last
token of an expression is no line feed where line feeds end it (`Lasts`), so that there the end of
the chunk is not met.
-/

namespace DeskCalc

namespace Pass

/-- The end of a chunk, behind its last line feed. -/
structure Place.Ended (x : Place) : Prop where
  sights : x.sights = [.eof]
  previous : x.previous = .newline ∨ x.previous = .eof

/-- Both places are the same, and what the second text has behind the first is `ws`, or it does not
count any more. -/
def Place.Near (ws : List Sight) (x X : Place) : Prop :=
  x.Level ws X ∨ ws ≠ [.eof] ∧ X = x ∧ x.Ended

/-- The last token that was read is neither a line feed nor the end of the text. -/
def Capped (p : Pass) : Prop := p.previous ≠ .newline ∧ p.previous ≠ .eof

/-- The current token is neither a line feed nor the end of the text. -/
def AtWord (p : Pass) : Prop := p.token.kind ≠ .newline ∧ p.token.kind ≠ .eof

end Pass

namespace Compile

open Pass

variable {α β : Type} {T : Place → Place → Prop} {ws : List Sight} {l : Prop} {p P q Q : Pass}
  {sub : Sub} {ctx : Context} {m M : Compile α} {ends : Ends}

/-! ## What is behind the chunk -/

theorem reprograms_suppressValue (h : Session.Alike p.toSession P.toSession) (t : Tally) :
    Reprograms (suppressValue t) p (suppressValue t) P := by
  intro a q hq
  obtain hstop | ⟨f, F, hp, hP, hF⟩ := function_cases h
  · exact absurd hq (hstop.bind a q)
  have hcode : F.code.unlined = f.code.unlined := congrArg Function.code hF
  have hdiscard : (F.code.discardValue? t P.token.span.line).map Code.unlined =
      (f.code.discardValue? t p.token.span.line).map Code.unlined := by
    rw [← Code.discardValue?_unlined, hcode, Code.discardValue?_unlined]
  rw [suppressValue, bind_of_ok hp, here, bind_assoc, get_bind, pure_bind] at hq
  rw [suppressValue, bind_of_ok hP, here, bind_assoc, get_bind, pure_bind]
  cases hf : f.code.discardValue? t p.token.span.line with
  | none =>
    rw [hf] at hq
    cases hq
    rw [hf, Option.map_none, Option.map_eq_none_iff] at hdiscard
    rw [hdiscard]
    exact ⟨_, _, rfl, rfl, h.program⟩
  | some c =>
    rw [hf] at hq
    cases hq
    rw [hf, Option.map_some, Option.map_eq_some_iff] at hdiscard
    obtain ⟨C, hC, heq⟩ := hdiscard
    rw [hC]
    refine ⟨_, _, rfl, rfl, ?_⟩
    rw [h.target]
    refine Program.unlined_modifyFunction h.program (fun _ _ _ => ?_) _
    simp only [Function.unlined, Function.mk.injEq] at hF ⊢
    simp [hF, heq]

theorem stays_suppressValue (h : p.Along T P) {t : Tally} :
    Stays T (suppressValue t) p (suppressValue t) P :=
  (reprograms_suppressValue h.toAlike t).stays h

theorem near_cases (h : p.Along (Place.Near ws) P) :
    p.Ahead ws P ∨ ws ≠ [.eof] ∧ P.place = p.place ∧ p.place.Ended :=
  h.place.imp (fun hplace => { h with place := hplace }) id

/-- Behind the end of the chunk the first pass stands for the second one. -/
theorem near_self (hlenient : p.strictness = .lenient) (hws : ws ≠ [.eof]) (hp : p.place.Ended) :
    p.Along (Place.Near ws) p where
  toAlike := ⟨rfl, rfl, rfl, rfl, rfl, rfl, rfl, id, rfl⟩
  lenient := hlenient
  quitting := rfl
  place := .inr ⟨hws, rfl, hp⟩

/-- What `m` does on `p`, `M` does on `P`, or `p` has come to its end. -/
def Nears (ws : List Sight) (m : Compile α) (p : Pass) (M : Compile α) (P : Pass) : Prop :=
  ∀ a q, m p = .ok a q → p.Clears q ∧ ((∃ Q, M P = .ok a Q ∧ q.Along (Place.Near ws) Q) ∨
    ws ≠ [.eof] ∧ q.strictness = .lenient ∧ q.place.Ended)

theorem Stays.nears (h : Stays (Place.Near ws) m p M P) : Nears ws m p M P := by
  intro a q hm
  obtain ⟨hs, hq⟩ := h a q hm
  exact ⟨⟨[], hs.symm, nofun⟩, .inl hq⟩

theorem Stops.nears (h : Stops m p) : Nears ws m p M P :=
  fun a q hm => absurd hm (h a q)

theorem Nears.bind {m M : Compile β} {f F : β → Compile α} (hm : Nears ws m p M P)
    (hf : ∀ a q Q, m p = .ok a q → q.Along (Place.Near ws) Q → Nears ws (f a) q (F a) Q) :
    Nears ws (m >>= f) p (M >>= F) P := by
  intro b r h
  obtain ⟨a, q, hq, hr⟩ := bind_eq_ok h
  obtain ⟨hclears, ⟨Q, hQ, hnear⟩ | ⟨hws, hlenient, hend⟩⟩ := hm a q hq
  · obtain ⟨hclears', hr⟩ := hf a q Q hq hnear b r hr
    rw [bind_of_ok hQ]
    exact ⟨hclears.trans hclears', hr⟩
  · -- the rest stays at the end
    obtain ⟨hclears', ⟨R, -, hnear⟩ | hr⟩ := hf a q q hq (near_self hlenient hws hend) b r hr
    · have hat : r.AtEnd := AtEnd.of_clears hend.sights hclears'
      rcases near_cases hnear with hahead | ⟨-, -, hr⟩
      · exact absurd hat (hahead.not_atEnd hws)
      · exact ⟨hclears.trans hclears', .inr ⟨hws, hnear.lenient, hr⟩⟩
    · exact ⟨hclears.trans hclears', .inr hr⟩

theorem advance_kept :
    Accepts advance p fun _ q => q.previous = p.token.kind ∧ q.strictness = p.strictness := by
  simp only [Accepts, advance, ensures_bind, ensures_get]
  split
  · exact ⟨rfl, rfl⟩
  · simp only [ensures_bind, ensures_set]
    split
    · trivial
    · exact ⟨rfl, rfl⟩

theorem advance_nears (h : p.Along (Place.Near ws) P) : Nears ws advance p advance P := by
  intro a q hq
  have hkept := advance_kept.ok hq
  rcases near_cases h with hahead | ⟨hws, -, hend⟩
  · obtain ⟨hclears, ⟨⟨hws, hline⟩, hat⟩ | ⟨Q, hQ, hq⟩⟩ := follows_advance hahead a q hq
    · exact ⟨hclears, .inr ⟨hws, hkept.2.trans h.lenient, hat, .inl (hkept.1.trans hline)⟩⟩
    · exact ⟨hclears, .inl ⟨Q, hQ, { hq with place := .inl hq.place }⟩⟩
  · rw [advance_of_nil (AtEnd.upcoming hend.sights)] at hq
    cases hq
    exact ⟨.refl p, .inr ⟨hws, h.lenient, hend.sights, .inr (AtEnd.kind hend.sights)⟩⟩

theorem near_word (h : p.Along (Place.Near ws) P) : P.token.word = p.token.word := by
  rcases near_cases h with hahead | ⟨-, hplace, -⟩
  · exact hahead.word
  · exact congrArg Prod.fst (List.cons.inj (congrArg Place.sights hplace)).1

theorem near_previous (h : p.Along (Place.Near ws) P) : P.previous = p.previous := by
  rcases near_cases h with hahead | ⟨-, hplace, -⟩
  · exact hahead.previous
  · exact congrArg Place.previous hplace

theorem like_of_word {t t' : Token} (h : t'.word = t.word) : t.Like t' := by
  have hkind : t'.kind = t.kind := by rw [← Token.word_fst, h, Token.word_fst]
  have htext (hk : t.kind = .number ∨ t.kind = .string ∨ t.kind = .name) : t'.text = t.text := by
    unfold Token.word at h
    rcases hk with hk | hk | hk <;> rw [hk] at hkind h <;> rw [hkind] at h <;>
      exact congrArg Prod.snd h
  exact ⟨hkind, fun hk => congrArg digits (htext (.inl hk)), fun hk => htext (.inr hk)⟩

/-- **What does not depend on what is behind the chunk.** -/
def chunkwise (ws : List Sight) : Parts where
  Rel p P := p.Along (Place.Near ws) P
  Out m p M P := Nears ws m p M P
  Like := Token.Like
  Fit _ := True
  reads := true
  under := []
  like := id
  view h := ⟨like_of_word (near_word h), near_previous h, h.operators.trans (List.append_nil _).symm⟩
  fit _ _ := trivial
  pure h a := (stays_pure h a).nears
  refuse _ _ _ _ := (stops_throw _).nears
  bind := .bind
  get h := h
  exceed _ := (stops_throw _).nears
  bounded {α p P f F} h _ hF hnears := by
    intro a q hq
    obtain ⟨hclears, ⟨Q, hQ, hnear⟩ | hend⟩ := hnears _ a q hq
    · have hlength : p.upcoming.length ≤ P.upcoming.length := by
        rcases near_cases h with hahead | ⟨-, -, hend⟩
        · exact length_upcoming_le hahead
        · rw [AtEnd.upcoming hend.sights]
          exact Nat.zero_le _
      rcases hF _ _ hlength P with hP | ⟨R, hR⟩
      · exact ⟨hclears, .inl ⟨Q, hP.symm.trans hQ, hnear⟩⟩
      · cases hQ.symm.trans hR
    · exact ⟨hclears, .inr hend⟩
  advance := advance_nears
  atDelimiter {p P} h := by
    have hkind : P.token.kind = p.token.kind := (like_of_word (near_word h)).kind
    have hsame : isDelimited P = isDelimited p := by
      simp only [isDelimited, hkind, h.blocks, near_previous h]
    have hrun (p : Pass) : atDelimiter p = .ok (isDelimited p) p := rfl
    exact (stays_of_ok (hrun p) (hsame ▸ hrun P) rfl h).nears
  report h _ _ := (stays_report h).nears
  operators h _ _ hops :=
    Stays.nears (stays_of_ok rfl rfl rfl { h with operators := hops.trans (List.append_nil _) })
  emit h _ _ := (stays_emitWith h _ _).nears
  enter h _ e _ := (stays_intern h (e.interns _ _)).nears
  suppressValue h _ := (stays_suppressValue h).nears

instance permits_chunkwise (ctx : Context) : Permits (chunkwise ws) ctx := ⟨fun _ => rfl⟩

/-! ## The last token -/

/-- From a pass with `pre` on, the last token that is read is neither a line feed nor the end. -/
class Lasts (pre : Pass → Prop) (m : Compile α) : Prop where
  lasts : ∀ p, pre p → Accepts m p fun _ q => q.Capped

/-- It is so wherever the computation begins. -/
abbrev Caps (m : Compile α) : Prop := Lasts (fun _ => True) m

section Rules

variable {m n : Compile α} {f : α → Compile β} {pre : Pass → Prop}

instance lasts_throw (e : Stop) : Lasts pre (throw e : Compile α) := ⟨fun _ _ => trivial⟩

instance lasts_of_caps [h : Caps m] : Lasts pre m := ⟨fun p _ => h.lasts p trivial⟩

instance lasts_of_quiet [h : Quiet m] : Lasts Capped m :=
  ⟨fun p hp => (h.quiet p).imp fun _ _ hq => by rwa [Capped, hq.2]⟩

instance caps_then [h : ∀ a, Caps (f a)] : Caps (m >>= f) :=
  ⟨fun p _ => (ensures_any m p).bind (fun a q _ => (h a).lasts q trivial) fun _ _ => id⟩

instance lasts_bind [h : Lasts pre m] [hf : ∀ a, Lasts Capped (f a)] : Lasts pre (m >>= f) :=
  ⟨fun p hp => Ensures.bind (h.lasts p hp) (fun a q hq => (hf a).lasts q hq) fun _ _ => id⟩

/-- Where nothing is read at first, the current token stays the same. -/
instance lasts_quiet [hm : Quiet m] [h : ∀ a, Lasts AtWord (f a)] : Lasts AtWord (m >>= f) where
  lasts p hp := Ensures.bind (hm.quiet p)
    (fun a q hq => (h a).lasts q (by rwa [AtWord, hq.1])) fun _ _ => id

instance lasts_ite {c : Prop} [Decidable c] [hm : Lasts pre m] [hn : Lasts pre n] :
    Lasts pre (if c then m else n) := by
  split <;> assumption

instance lasts_advance : Lasts AtWord advance :=
  ⟨fun p h => (advance_kept (p := p)).imp fun _ _ hq => by rwa [Capped, hq.1]⟩

/-- A look at a token, and what depends on it. -/
theorem lasts_isAt {k : Token.Kind} (hk : k ≠ .newline ∧ k ≠ .eof) (hm : Lasts AtWord m)
    (hn : Lasts pre n) : Lasts pre (do if ← isAt k then m else n) where
  lasts p h := by
    change Accepts (if p.token.kind == k then m else n) p _
    split
    · next h' => exact hm.lasts p (by rwa [AtWord, beq_iff_eq.1 h'])
    · exact hn.lasts p h

instance lasts_isSymbol {s : Symbol} [hm : Lasts AtWord m] [hn : Lasts pre n] :
    Lasts pre (do if ← isAt (.symbol s) then m else n) := lasts_isAt ⟨nofun, nofun⟩ hm hn

end Rules

instance caps_refuseHere (cause : Cause) : Caps (refuseHere cause : Compile α) :=
  ⟨fun _ _ => trivial⟩

instance caps_unexpected : Caps (unexpected : Compile α) :=
  ⟨fun _ _ => ensures_unexpected fun _ => trivial⟩

instance caps_refuse (cause : Cause) (span : Span) (name : Option String) :
    Caps (refuse cause span name : Compile α) := lasts_throw _

instance caps_refuse_bind (cause : Cause) (span : Span) (name : Option String)
    (f : α → Compile β) : Caps (refuse cause span name >>= f) := ⟨fun _ _ => trivial⟩

instance caps_expect (s : Symbol) : Caps (expect (.symbol s)) := lasts_isSymbol

instance caps_call (t : Token) : Caps (call sub ctx t) := by
  have hlast (count : Nat) : Lasts AtWord (do
      let id ← intern (·.internFunction t.text t.span)
      emitWith .call [count, id]
      advance) := inferInstance
  refine caps_then (h := fun _ => ⟨fun p _ => ?_⟩)
  refine Ensures.bind (ensures_self (callArguments sub ctx)) (fun count q hq => ?_) fun _ _ _ => trivial
  have hk := kind_of_callArguments hq
  exact (hlast count).lasts q ⟨by simp [hk], by simp [hk]⟩

instance lasts_wholeArray (t : Token) (index : Nat) : Lasts AtWord (wholeArray ctx t index) := by
  unfold wholeArray
  infer_instance

instance lasts_behindName (calls : Bool) (t : Token) (k : Token.Kind) :
    Lasts Capped (behindName sub ctx calls t k) := by
  unfold behindName
  split <;> infer_instance

instance lasts_named (calls : Bool) : Lasts AtWord (named sub ctx calls) := by
  dsimp only [named]
  infer_instance

instance caps_builtinArguments : Caps (builtinArguments sub ctx) := by
  unfold builtinArguments
  infer_instance

instance caps_unary (f : Unary) : Caps (unary sub ctx f) := by
  dsimp only [unary, refuseArity]
  infer_instance

instance caps_query (f : Query) : Caps (query f) := by
  dsimp only [query, refuseArity]
  infer_instance

instance lasts_scale : Lasts AtWord (scale sub ctx) := by
  have hcall (t : Token) : Caps (do
      advance
      let count ← builtinArguments sub (ctx.inner false)
      if count = 1 then
        emit .scaleOf
        return false
      else refuseArity t) := by
    unfold refuseArity
    infer_instance
  dsimp only [scale]
  infer_instance

instance caps_ternary (f : Ternary) : Caps (ternary sub ctx f) := by
  cases f <;> dsimp only [ternary, refuseArity] <;>
  · refine caps_then (h := fun _ => caps_then (h := fun _ => caps_then (h := fun _ => ?_)))
    refine caps_then (h := fun _ => caps_then (h := fun _ => caps_then (h := fun _ => ?_)))
    infer_instance

instance lasts_string : Lasts AtWord string := by
  dsimp only [string]
  infer_instance

instance lasts_operand : Lasts AtWord (operand sub ctx) := by
  have hnumber : Lasts AtWord number := by
    dsimp only [number]
    infer_instance
  exact lasts_quiet (h := fun k => by split <;> infer_instance)

/-! ## The tokens of an expression -/

instance quiet_pushOperator (o : Operator) : Quiet (pushOperator o) := ⟨fun _ => ⟨rfl, rfl⟩⟩

instance quiet_dropOperators (n : Nat) : Quiet (dropOperators n) := ⟨fun _ => ⟨rfl, rfl⟩⟩

instance quiet_awaitOperand (base : Nat) (op : Operator) (t : Tally) :
    Quiet (awaitOperand base op t) := by
  unfold awaitOperand
  infer_instance

/-- Where it matters what the first token is. -/
theorem caps_kind {f : Token.Kind → Compile α} (hf : ∀ k, Lasts AtWord (f k))
    (hline : Caps (f .newline)) (hend : Caps (f .eof)) : Caps (kind >>= f) where
  lasts p _ := by
    change Accepts (f p.token.kind) p _
    by_cases h : p.token.kind = .newline
    · exact h ▸ hline.lasts p trivial
    by_cases h' : p.token.kind = .eof
    · exact h' ▸ hend.lasts p trivial
    · exact (hf _).lasts p ⟨h, h'⟩

instance lasts_stepBy (up : Bool) (t : Tally) : Lasts AtWord (stepBy sub ctx up t) := by
  have htarget (span : Span) : Caps (stepTarget sub ctx span) :=
    caps_kind (fun k => by split <;> infer_instance) (caps_refuse ..) (caps_refuse ..)
  dsimp only [stepBy]
  infer_instance

instance lasts_applyOperator (base : Nat) (op : Operator) (t : Tally) :
    Lasts AtWord (applyOperator base op t) := by
  dsimp only [applyOperator]
  infer_instance

/-- A turn ends behind such a token, or it reads nothing and is the last one. -/
theorem turn_capped {base : Nat} {t : Tally} : Accepts (turn sub base ctx t) p fun r q =>
    q.Capped ∨ r = .stop t ∧ q = p := by
  unfold turn Accepts
  rw [ensures_bind, ensures_kind]
  by_cases h : p.token.kind = .newline ∨ p.token.kind = .eof
  · rcases h with h | h <;> rw [h] <;> exact .inr ⟨rfl, rfl⟩
  have hcap {m : Compile Turn} [hm : Lasts AtWord m] :
      Accepts m p fun r q => q.Capped ∨ r = .stop t ∧ q = p :=
    (hm.lasts p (not_or.1 h)).imp fun _ _ => .inl
  split
  case h_6 =>
    dsimp only [closeParen]
    rw [ensures_bind, ensures_get]
    split
    · exact hcap
    split
    · split
      · exact .inr ⟨rfl, rfl⟩
      · exact hcap
    · exact hcap
  case h_7 =>
    split
    · exact hcap
    · exact .inr ⟨rfl, rfl⟩
  case h_9 =>
    split
    · exact hcap
    · exact .inr ⟨rfl, rfl⟩
  all_goals exact hcap

theorem turns_capped {base : Nat} : Accepts (turns sub base ctx) p fun r q =>
    q.Capped ∨ r = some {} := by
  rw [turns]
  refine accepts_iterate (fun state p => p.Capped ∨ state.2 = {}) (fun state p hp => ?_) _ _ p
    (.inr rfl)
  refine Ensures.bind turn_capped (fun r q hq => ?_) fun _ _ => id
  rcases hq with hq | ⟨rfl, rfl⟩
  · cases r <;> exact .inl hq
  · exact hp.imp_right (congrArg some)

theorem stops_endExpression {base : Nat} {parenFirst : Bool} {t : Tally} (ht : t.values = 0) :
    Stops (endExpression base ctx ends parenFirst t) p := by
  intro a q hq
  obtain ⟨t', r, hr, hq⟩ := bind_eq_ok hq
  have hvalues : t'.values = 0 := by
    have hdrain : Ensures (drain base t) p (fun t' _ => t'.values = 0) (fun _ _ => True) := by
      refine ensures_then fun p q => ?_
      simp only [ensures_ite, ensures_refuseHere]
      split
      · trivial
      · refine ensures_then fun _ _ => ensures_then fun _ _ => ?_
        simp [Tally.finish, Tally.apply, ht]
    exact hdrain.ok hr
  rw [if_neg (by simp [hvalues])] at hq
  exact stops_refuseHere _ _ hq

/-- Where a line feed ends an expression it is not read. -/
theorem caps_turns (ctx : Context) (hends : ends.contains .newline = true) (bound : List Reading)
    (base : Nat) : Caps (do
      let parenFirst ← isAt (.symbol .leftParen)
      match ← turns (nested bound) base ctx with
      | some t => do
        endExpression base ctx ends parenFirst t
        return Outcome.value
      | none => return .empty) := by
  have hend (base : Nat) (parenFirst : Bool) (t : Tally) :
      Lasts Capped (endExpression base ctx ends parenFirst t) := by
    have hdrain : Lasts Capped (drain base t) := by unfold drain; infer_instance
    have hreport (t : Tally) : Quiet (reportRelations ctx t) := by
      unfold reportRelations
      infer_instance
    have hsettle (t : Tally) : Quiet (settleValue ctx parenFirst t) := by
      unfold settleValue
      infer_instance
    simp only [endExpression, hends, if_true]
    infer_instance
  refine caps_then (h := fun parenFirst => ⟨fun q _ => ?_⟩)
  refine Ensures.bind turns_capped (fun r q' hr => ?_) fun _ _ => id
  cases r with
  | none => exact hr.resolve_right (by simp)
  | some t =>
    rcases hr with hr | hr
    · exact (lasts_bind (h := hend base parenFirst t)).lasts q' hr
    · cases hr
      exact (ensures_self _).mono (fun a s hs => absurd hs ((stops_endExpression rfl).bind a s))
        fun _ _ _ => trivial

theorem caps_expressionOrEmpty (hends : ends.contains .newline = true) :
    Caps (expressionOrEmpty ctx ends) := by
  have hturns := caps_turns ctx hends
  refine caps_then (h := fun p => ?_)
  rw [expressionAt_eq]
  unfold expressionWith
  infer_instance

theorem caps_expression (hends : ends.contains .newline = true) : Caps (expression ctx ends) := by
  exact lasts_bind (h := caps_expressionOrEmpty hends)

/-- Where the last token is no line feed the first pass keeps away from the end of its chunk. -/
theorem Nears.follows (h : Nears ws m p M P) {I : Pass → Prop} [hm : Lasts I m] (hp : I p) :
    Follows ws l m p M P := by
  intro a q hq
  have hcapped : q.Capped := (hm.lasts p hp).ok hq
  have hopen : ¬q.place.Ended := fun hend => hend.previous.elim hcapped.1 hcapped.2
  obtain ⟨hclears, ⟨Q, hQ, hnear⟩ | ⟨-, -, hend⟩⟩ := h a q hq
  · rcases near_cases hnear with hQ' | ⟨-, -, hend⟩
    · exact ⟨hclears, .inr ⟨Q, hQ, hQ'⟩⟩
    · exact absurd hend hopen
  · exact absurd hend hopen

theorem atWord_of_keyword {k : Keyword} (h : p.token.kind = .keyword k) : p.AtWord :=
  ⟨by simp [h], by simp [h]⟩

theorem near_of_ahead (h : p.Ahead ws P) : p.Along (Place.Near ws) P :=
  { h with place := .inl h.place }

theorem follows_of_lasts [hm : Fine (chunkwise ws) m] {I : Pass → Prop} [Lasts I m] (hp : I p)
    (h : p.Ahead ws P) : Follows ws l m p m P :=
  Nears.follows (hm.out p P (near_of_ahead h)) hp

theorem follows_of_caps [Fine (chunkwise ws) m] [Caps m] (h : p.Ahead ws P) : Follows ws l m p m P :=
  follows_of_lasts (I := fun _ => True) trivial h

end Compile

end DeskCalc
