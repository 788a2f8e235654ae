import DeskCalc.Proofs.Chunks.Reading
import DeskCalc.Proofs.Chunks.Unlined
import DeskCalc.Proofs.Progress

/-!
# Two passes over the same tokens

The chunk that a pass goes over may be the beginning of a longer text that another pass goes over.
`p.Ahead ws P` says that both are at the same place: the sessions are the same but for lines, and
where `p` will meet the end of its chunk `P` will go on with `ws`. The chunk ends in a line feed, so
that a part of the compiler that does not skip line feeds keeps away from its end.

`Follows` says that what the compiler does on `p` it does on `P` as well, and that the two are at the
same place afterwards, unless `p` has come to the end of its chunk.
-/

namespace DeskCalc

/-- The sessions are the same, except for lines and warnings. Where the first allows `auto` the
second does so too. -/
structure Session.Alike (s t : Session) : Prop where
  program : t.program.unlined = s.program.unlined
  strictness : t.strictness = s.strictness
  blocks : t.blocks = s.blocks
  exits : t.exits = s.exits
  continues : t.continues = s.continues
  operators : t.operators = s.operators
  target : t.target = s.target
  autoAllowed : s.autoAllowed = true → t.autoAllowed = true
  checkpoint : t.checkpoint = s.checkpoint

namespace Pass

variable {us : List Sight}

/-- What the compiler sees from the current token on. -/
def sights (p : Pass) : List Sight := (p.token.word, false) :: p.upcoming.map Reading.sight

/-- The pass is at the end of its text. -/
def AtEnd (p : Pass) : Prop := p.sights = [.eof]

/-- From `p` to `q` only tokens without error were read. -/
def Clears (p q : Pass) : Prop := ∃ us, p.sights = us ++ q.sights ∧ ∀ u ∈ us, u.2 = false

/-- From `p` to `q` only the tokens `us` were read, and nothing else was done. -/
structure Skips (p : Pass) (us : List Sight) (q : Pass) : Prop where
  sights : p.sights = us ++ q.sights
  clear : ∀ u ∈ us, u.2 = false
  session : q.toSession = { p.toSession with warnings := q.warnings }
  previous : q.previous = (us.getLast?.map (·.1.1)).getD p.previous
  quitting : q.quitting = p.quitting

/-- Where a pass is in its text. -/
structure Place where
  previous : Token.Kind
  sights : List Sight

def place (p : Pass) : Place := ⟨p.previous, p.sights⟩

/-- The sessions of both passes are the same but for lines, and `T` is known of their places. -/
structure Along (T : Place → Place → Prop) (p P : Pass) : Prop
    extends Session.Alike p.toSession P.toSession where
  lenient : p.strictness = .lenient
  quitting : P.quitting = p.quitting
  place : T p.place P.place

/-- Both places are the same, and `ws` stands for what the second text has behind the first. -/
structure Place.Level (ws : List Sight) (x X : Place) : Prop where
  more : ws ≠ []
  previous : X.previous = x.previous
  sights : ∃ us, x.sights = us ++ [.eof] ∧ X.sights = us ++ ws ∧
    (ws = [.eof] ∨ us.getLast?.map (·.1.1) = some .newline)

/-- Both passes are at the same place, and `ws` stands for what `P` has behind the chunk of `p`. -/
abbrev Ahead (ws : List Sight) (p P : Pass) : Prop := p.Along (Place.Level ws) P

variable {ws : List Sight} {p P q r : Pass}

theorem Clears.refl (p : Pass) : p.Clears p := ⟨[], rfl, nofun⟩

theorem Clears.trans (h : p.Clears q) (h' : q.Clears r) : p.Clears r := by
  obtain ⟨us, hp, hus⟩ := h
  obtain ⟨vs, hq, hvs⟩ := h'
  refine ⟨us ++ vs, by rw [hp, hq, List.append_assoc], fun u hu => ?_⟩
  rcases List.mem_append.1 hu with hu | hu
  · exact hus u hu
  · exact hvs u hu

theorem Skips.refl (p : Pass) : p.Skips [] p := ⟨rfl, nofun, rfl, rfl, rfl⟩

theorem Skips.trans {vs : List Sight} (h : p.Skips us q) (h' : q.Skips vs r) : p.Skips (us ++ vs) r where
  sights := by rw [h.sights, h'.sights, List.append_assoc]
  clear u hu := (List.mem_append.1 hu).elim (h.clear u) (h'.clear u)
  session := by rw [h'.session, h.session]
  previous := by
    rw [h'.previous, h.previous, List.getLast?_append]
    cases vs.getLast? <;> rfl
  quitting := h'.quitting.trans h.quitting

theorem Skips.clears (h : p.Skips us q) : p.Clears q := ⟨us, h.sights, h.clear⟩

theorem AtEnd.clears (h : p.AtEnd) (hq : q.AtEnd) : p.Clears q := ⟨[], h.trans hq.symm, nofun⟩

/-- At the end of the text a pass stays there. -/
theorem AtEnd.of_clears (h : p.AtEnd) (hq : p.Clears q) : q.AtEnd := by
  obtain ⟨us, hus, -⟩ := hq
  cases us with
  | nil => exact hus.symm.trans h
  | cons u us =>
    have hlen := congrArg List.length (hus.symm.trans h)
    simp [Pass.sights] at hlen

theorem kind_of_sights {t : Sight} (h : p.sights = t :: us) : p.token.kind = t.1.1 := by
  rw [← Token.word_fst, ← (List.cons.inj h).1]

theorem AtEnd.kind (h : p.AtEnd) : p.token.kind = .eof := kind_of_sights h

theorem AtEnd.upcoming (h : p.AtEnd) : p.upcoming = [] :=
  List.map_eq_nil_iff.1 (List.cons.inj h).2

/-- Before the end of its text a pass has tokens to come. -/
theorem upcoming_ne_nil (h : p.sights.getLast? = some .eof) (hk : p.token.kind ≠ .eof) :
    p.upcoming ≠ [] := by
  intro hnil
  have hat : p.sights = [.eof] := by
    rw [sights, hnil] at h ⊢
    exact congrArg ([·]) (Option.some.inj h)
  exact hk (AtEnd.kind hat)

section

variable (h : p.Ahead ws P)
include h

theorem Along.more : ws ≠ [] := h.place.more

theorem Along.previous : P.previous = p.previous := h.place.previous

theorem Along.sights : ∃ us, p.sights = us ++ [.eof] ∧ P.sights = us ++ ws ∧
    (ws = [.eof] ∨ us.getLast?.map (·.1.1) = some .newline) := h.place.sights

/-- The current token is the same, unless it is the end of the chunk. -/
theorem Along.word : P.token.word = p.token.word := by
  obtain ⟨us, hp, hP, hws⟩ := h.sights
  cases us with
  | nil =>
    rcases hws with rfl | hws
    · exact congrArg Prod.fst (List.cons.inj (hP.trans hp.symm)).1
    · cases hws
  | cons u us =>
    exact congrArg Prod.fst ((List.cons.inj hP).1.trans (List.cons.inj hp).1.symm)

theorem Along.kind : P.token.kind = p.token.kind := by
  rw [← Token.word_fst, h.word, Token.word_fst]

/-- Two passes at the same place are not at the end of a chunk with more behind it. -/
theorem Along.not_atEnd (hws : ws ≠ [.eof]) : ¬p.AtEnd := by
  intro hat
  obtain ⟨us, hp, -, hline⟩ := h.sights
  have hnil : us = [] := by simpa using hp.symm.trans hat
  simpa [hnil] using hline.resolve_left hws

end

theorem kind_of_sights_eq (h : q.sights = p.sights) : q.token.kind = p.token.kind :=
  (kind_of_sights (show q.sights = (p.token.word, false) :: _ from h)).trans (Token.word_fst _)

theorem Along.getLast? (h : p.Ahead ws P) : p.sights.getLast? = some .eof := by
  obtain ⟨us, hus, -, -⟩ := h.sights
  rw [hus, List.getLast?_concat]

/-- What is left of the chunk after some tokens. -/
theorem Along.rest (h : p.Ahead ws P) (hp : p.Skips us q) :
    ∃ vs, q.sights = vs ++ [.eof] ∧ P.sights = us ++ (vs ++ ws) ∧
      (ws = [.eof] ∨ (us ++ vs).getLast?.map (·.1.1) = some .newline) := by
  obtain ⟨vs, hvs, hVs, hline⟩ := h.sights
  have hlast : q.sights.getLast? = some .eof := by
    have := congrArg List.getLast? (hp.sights.symm.trans hvs)
    simpa [Pass.sights] using this
  obtain ⟨us', hqs⟩ := List.getLast?_eq_some_iff.1 hlast
  have huv : vs = us ++ us' := by
    rw [hp.sights, hqs, ← List.append_assoc] at hvs
    exact (List.append_cancel_right hvs).symm
  subst huv
  exact ⟨us', hqs, by rw [hVs, List.append_assoc], hline⟩

/-- Where the first pass has read some tokens, it has come to the end of its chunk at a line feed,
or the other pass finds the same tokens. -/
theorem Along.next (h : p.Ahead ws P) (hp : p.Skips us q) :
    (ws ≠ [.eof] ∧ q.AtEnd ∧ us.getLast?.map (·.1.1) = some .newline) ∨
      (ws = [.eof] ∨ ¬q.AtEnd) ∧ ∃ tail, P.sights = us ++ (q.token.word, false) :: tail := by
  obtain ⟨vs, hqs, hPs, hline⟩ := h.rest hp
  rcases vs with _ | ⟨v, vs⟩
  · by_cases hws : ws = [.eof]
    · refine .inr ⟨.inl hws, [], ?_⟩
      rw [hPs, hws, (List.cons.inj hqs).1]
      rfl
    · exact .inl ⟨hws, hqs, by simpa using hline.resolve_left hws⟩
  · refine .inr ⟨.inr fun hat => ?_, vs ++ ws, by rw [hPs, (List.cons.inj hqs).1]; rfl⟩
    simpa using hqs.symm.trans hat

/-- Where both passes only read tokens their sessions stay alike. -/
theorem Along.skip {T T' : Place → Place → Prop} {vs : List Sight} (h : p.Along T P)
    (hp : p.Skips us q) (hP : P.Skips vs Q) (hplace : T' q.place Q.place) : q.Along T' Q where
  toAlike := by
    rw [hp.session, hP.session]
    exact { h.toAlike with }
  lenient := by rw [hp.session]; exact h.lenient
  quitting := by rw [hp.quitting, hP.quitting, h.quitting]
  place := hplace

/-- Where both passes have read the same tokens they are at the same place again. -/
theorem Along.skips {Q : Pass} (h : p.Ahead ws P) (hp : p.Skips us q) (hP : P.Skips us Q)
    (hend : ws = [.eof] ∨ ¬q.AtEnd) : q.Ahead ws Q := by
  obtain ⟨us', hqs, hPs, hline⟩ := h.rest hp
  have hQs : Q.sights = us' ++ ws := List.append_cancel_left (hP.sights.symm.trans hPs)
  refine h.skip hp hP
    { more := h.more
      previous := by
        change Q.previous = q.previous
        rw [hp.previous, hP.previous, h.previous]
      sights := ⟨us', hqs, hQs, ?_⟩ }
  by_cases hws : ws = [.eof]
  · exact .inl hws
  · right
    have hne : us' ≠ [] := fun hnil => hend.resolve_left hws (by rw [AtEnd, hqs, hnil]; rfl)
    have := hline.resolve_left hws
    rw [List.getLast?_append] at this
    obtain ⟨w, hw⟩ := Option.isSome_iff_exists.1 (List.getLast?_isSome.2 hne)
    rw [hw] at this ⊢
    exact this

end Pass

namespace Compile

open Pass

variable {α β : Type} {T : Place → Place → Prop} {ws : List Sight} {l l' : Prop} {p P : Pass}
  {m M : Compile α} {f : Token.Kind → Bool} {q : Pass} {F : β → Compile α}
  {change change' : Function → Function}

/-- What `m` does on `p`, `M` does on `P`, or `p` has come to its end, which only happens if `l`. -/
def Follows (ws : List Sight) (l : Prop) (m : Compile α) (p : Pass) (M : Compile α) (P : Pass) :
    Prop :=
  ∀ a q, m p = .ok a q →
    p.Clears q ∧ ((l ∧ q.AtEnd) ∨ ∃ Q, M P = .ok a Q ∧ q.Ahead ws Q)

/-- What `m` does on `p`, `M` does on `P`, and no token is read. -/
def Stays (T : Place → Place → Prop) (m : Compile α) (p : Pass) (M : Compile α) (P : Pass) : Prop :=
  ∀ a q, m p = .ok a q → q.sights = p.sights ∧ ∃ Q, M P = .ok a Q ∧ q.Along T Q

/-! ## Rules -/

theorem Stays.follows (h : Stays (Place.Level ws) m p M P) : Follows ws l m p M P := by
  intro a q hm
  obtain ⟨hs, hq⟩ := h a q hm
  exact ⟨⟨[], hs.symm, nofun⟩, .inr hq⟩

theorem Follows.mono (h : Follows ws l m p M P) (hl : l → l') : Follows ws l' m p M P := by
  intro a q hm
  obtain ⟨hclears, ⟨hl', hend⟩ | hq⟩ := h a q hm
  · exact ⟨hclears, .inl ⟨hl hl', hend⟩⟩
  · exact ⟨hclears, .inr hq⟩

theorem stays_of_ok {a : α} {Q : Pass} (hm : m p = .ok a q) (hM : M P = .ok a Q)
    (hs : q.sights = p.sights) (h : q.Along T Q) : Stays T m p M P := by
  intro b r hr
  cases hm.symm.trans hr
  exact ⟨hs, Q, hM, h⟩

theorem stays_pure (h : p.Along T P) (a : α) : Stays T (pure a) p (pure a) P :=
  stays_of_ok rfl rfl rfl h

theorem follows_pure (h : p.Ahead ws P) (a : α) : Follows ws l (pure a) p (pure a) P :=
  (stays_pure h a).follows

/-- A sequence. Where its first half comes to the end of the chunk, the second half fails or stays
there. -/
theorem Follows.bind {m M : Compile β} {f : β → Compile α} (hm : Follows ws l' m p M P)
    (hend : l' → ∀ a q, q.AtEnd → ∀ b r, f a q = .ok b r → l ∧ r.AtEnd)
    (hf : ∀ a q Q, m p = .ok a q → q.Ahead ws Q → Follows ws l (f a) q (F a) Q) :
    Follows ws l (m >>= f) p (M >>= F) P := by
  intro b r h
  obtain ⟨a, q, hq, hr⟩ := bind_eq_ok h
  obtain ⟨hclears, ⟨hl, hat⟩ | ⟨Q, hQ, hahead⟩⟩ := hm a q hq
  · have hrend := hend hl a q hat b r hr
    exact ⟨hclears.trans (hat.clears hrend.2), .inl hrend⟩
  · obtain ⟨hclears', hr⟩ := hf a q Q hq hahead b r hr
    rw [bind_of_ok hQ]
    exact ⟨hclears.trans hclears', hr⟩

theorem Follows.ahead {a : α} (h : Follows ws False m p M P) (hm : m p = .ok a q) :
    ∃ Q, M P = .ok a Q ∧ q.Ahead ws Q :=
  (h a q hm).2.resolve_left fun hl => hl.1

/-- A sequence whose first half does not come to the end of the chunk. -/
theorem Follows.seq {m M : Compile β} {f : β → Compile α} (hm : Follows ws False m p M P)
    (hf : ∀ a q Q, m p = .ok a q → q.Ahead ws Q → Follows ws l (f a) q (F a) Q) :
    Follows ws l (m >>= f) p (M >>= F) P :=
  hm.bind False.elim hf

/-- A sequence whose first half reads no token. -/
theorem Stays.seq {m M : Compile β} {f : β → Compile α} (hm : Stays (Place.Level ws) m p M P)
    (hf : ∀ a q Q, q.sights = p.sights → q.Ahead ws Q → Follows ws l (f a) q (F a) Q) :
    Follows ws l (m >>= f) p (M >>= F) P :=
  hm.follows.seq fun a q Q hq hahead => hf a q Q (hm a q hq).1 hahead

theorem Stays.bind {m M : Compile β} {f : β → Compile α} (hm : Stays T m p M P)
    (hf : ∀ a q Q, q.sights = p.sights → q.Along T Q → Stays T (f a) q (F a) Q) :
    Stays T (m >>= f) p (M >>= F) P := by
  intro b r h
  obtain ⟨a, q, hq, hr⟩ := bind_eq_ok h
  obtain ⟨hs, Q, hQ, hahead⟩ := hm a q hq
  obtain ⟨hs', hr⟩ := hf a q Q hs hahead b r hr
  rw [bind_of_ok hQ]
  exact ⟨hs'.trans hs, hr⟩

theorem stays_get {f F : Pass → Compile α} :
    Stays T (get >>= f) p (get >>= F) P ↔ Stays T (f p) p (F P) P := Iff.rfl

theorem stays_topBlock {f F : Block → Compile α} :
    Stays T (topBlock >>= f) p (topBlock >>= F) P ↔
      Stays T (f p.blocks.top) p (F P.blocks.top) P := Iff.rfl

theorem isDelimited_eq (h : p.Ahead ws P) : isDelimited P = isDelimited p := by
  simp only [isDelimited, h.kind, h.blocks, h.previous]

/-! ## Refusals -/

/-- The compiler stops. -/
def Stops (m : Compile α) (p : Pass) : Prop := ∀ a q, m p ≠ .ok a q

theorem Stops.follows (h : Stops m p) : Follows ws l m p M P :=
  fun a q hm => absurd hm (h a q)

theorem Stops.stays (h : Stops m p) : Stays T m p M P :=
  fun a q hm => absurd hm (h a q)

theorem Stops.bind {m : Compile β} {f : β → Compile α} (h : Stops m p) : Stops (m >>= f) p := by
  intro b r hm
  obtain ⟨a, q, hq, -⟩ := bind_eq_ok hm
  exact h a q hq

theorem stops_throw (e : Stop) : Stops (throw e : Compile α) p := fun _ _ h => by cases h

theorem stops_refuse {cause : Cause} {span : Span} {name : Option String} :
    Stops (refuse cause span name : Compile α) p := stops_throw _

theorem stops_refuseHere {cause : Cause} : Stops (refuseHere cause : Compile α) p :=
  fun _ _ h => by cases h

theorem stops_unexpected : Stops (unexpected : Compile α) p := by
  intro a q
  unfold unexpected
  simp only [get_bind]
  split <;> rintro ⟨⟩

/-! ## Looking at a token -/

theorem follows_ifAt (h : p.Ahead ws P) {k : Token.Kind} {m' M' : Compile α}
    (hm : p.token.kind = k → Follows ws l m p M P) (hm' : p.token.kind ≠ k → Follows ws l m' p M' P) :
    Follows ws l (do if ← isAt k then m else m') p (do if ← isAt k then M else M') P := by
  change Follows ws l (if p.token.kind == k then m else m') p (if P.token.kind == k then M else M') P
  rw [h.kind]
  split
  · next hk => exact hm (beq_iff_eq.1 hk)
  · next hk => exact hm' fun he => hk (beq_iff_eq.2 he)

/-- Where POSIX plays no part nothing is reported. -/
theorem report_of_lenient (h : p.strictness = .lenient) {v : Violation} {span : Span} :
    report v span p = .ok () p := by
  simp only [report, get_bind, h]
  rfl

theorem stays_report (h : p.Along T P) {v : Violation} {span span' : Span} :
    Stays T (report v span) p (report v span') P :=
  stays_of_ok (report_of_lenient h.lenient)
    (report_of_lenient (h.strictness.trans h.lenient)) rfl h

/-! ## Tokens -/

theorem advance_of_nil (h : p.upcoming = []) :
    advance p = .ok () { p with previous := p.token.kind } := by
  simp only [advance, get_bind, h]
  rfl

/-- The pass at the next token. -/
def moved (p : Pass) (r : Reading) (rest : List Reading) : Pass :=
  { p with
    previous := p.token.kind
    token := r.token
    upcoming := rest
    warnings := p.warnings ++ r.warnings.map Notice.toDiagnostic }

theorem advance_of_cons {r : Reading} {rest : List Reading} (h : p.upcoming = r :: rest) :
    advance p = match r.error with
      | some n => .error (.refused n.toDiagnostic) (moved p r rest)
      | none => .ok () (moved p r rest) := by
  simp only [advance, get_bind, h]
  cases r.error <;> rfl

theorem skips_moved {r : Reading} {rest : List Reading} (h : p.upcoming = r :: rest)
    (hr : r.error = none) : p.Skips [(p.token.word, false)] (moved p r rest) where
  sights := by simp [Pass.sights, moved, h, Reading.sight, hr]
  clear u hu := by rw [List.mem_singleton.1 hu]
  session := rfl
  previous := by simp [moved]
  quitting := rfl

/-- Moving on succeeds where the next token is no error. -/
theorem exists_advance {u v : Sight} {vs : List Sight} (h : p.sights = u :: v :: vs)
    (hv : v.2 = false) : ∃ q, advance p = .ok () q ∧ p.Skips [u] q := by
  obtain ⟨hu, htail⟩ := List.cons.inj h
  cases hup : p.upcoming with
  | nil =>
    rw [hup] at htail
    cases htail
  | cons r rest =>
    rw [hup] at htail
    have hr : r.error = none := by
      have : r.error.isSome = v.2 := congrArg Prod.snd (List.cons.inj htail).1
      rw [hv] at this
      exact Option.not_isSome_iff_eq_none.1 (by simp [this])
    refine ⟨moved p r rest, ?_, hu ▸ skips_moved hup hr⟩
    rw [advance_of_cons hup, hr]

/-- Moving on moves to the next token, if there is one. -/
theorem skips_of_advance (hu : p.upcoming ≠ []) (hq : advance p = .ok () q) :
    p.Skips [(p.token.word, false)] q := by
  obtain ⟨r, rest, hu⟩ := List.exists_cons_of_ne_nil hu
  rw [advance_of_cons hu] at hq
  cases hr : r.error with
  | some n =>
    rw [hr] at hq
    cases hq
  | none =>
    rw [hr] at hq
    cases hq
    exact skips_moved hu hr

/-- Moving on comes to the end of the chunk only from a line feed. -/
theorem follows_advance (h : p.Ahead ws P) :
    Follows ws (ws ≠ [.eof] ∧ p.token.kind = .newline) advance p advance P := by
  obtain ⟨us, hp, hP, hws⟩ := h.sights
  intro a q hq
  rcases us with _ | ⟨u, us⟩
  · -- at the end of the last chunk there is nowhere to move
    have hend : ws = [.eof] := hws.resolve_right (by simp)
    subst hend
    rw [advance_of_nil (AtEnd.upcoming hp)] at hq
    cases hq
    refine ⟨.refl p, .inr ⟨_, advance_of_nil (AtEnd.upcoming hP), ?_⟩⟩
    exact { h with place := { h.place with previous := h.kind } }
  · have hskip : p.Skips [u] q := by
      have hu : p.upcoming ≠ [] := fun hu => by simp [Pass.sights, hu] at hp
      rw [← (List.cons.inj hp).1]
      exact skips_of_advance hu hq
    refine ⟨hskip.clears, ?_⟩
    rcases h.next hskip with ⟨hws, hat, hline⟩ | ⟨hstay, tail, hPs⟩
    · exact .inl ⟨⟨hws, by rw [kind_of_sights hp]; simpa using hline⟩, hat⟩
    · obtain ⟨Q, hQ, hSkip⟩ := exists_advance hPs rfl
      exact .inr ⟨Q, hQ, h.skips hskip hSkip hstay⟩

/-- Elsewhere moving on stays within the chunk. -/
theorem follows_advance_of_ne (h : p.Ahead ws P) (hk : p.token.kind ≠ .newline) :
    Follows ws l advance p advance P :=
  (follows_advance h).mono fun hl => absurd hl.2 hk

/-! ## Loops -/

/-- There are at least as many tokens for the second pass. -/
theorem length_upcoming_le (h : p.Ahead ws P) : p.upcoming.length ≤ P.upcoming.length := by
  obtain ⟨us, hp, hP, -⟩ := h.sights
  have hlen := congrArg List.length hp
  have hLen := congrArg List.length hP
  have hpos := List.length_pos_iff.2 h.more
  simp only [Pass.sights, List.length_cons, List.length_map, List.length_append,
    List.length_nil] at hlen hLen
  omega

/-- A loop whose repetitions stay within the chunk. Its last one may come to the end. -/
theorem follows_iterate {γ δ : Type} {step STEP : α → Compile (α ⊕ β)}
    (hstep : ∀ a p P, p.Ahead ws P → Follows ws l (step a) p (STEP a) P)
    (hend : l → ∀ a p P a' q, p.Ahead ws P → step a p = .ok (.inl a') q → ¬q.AtEnd)
    {bound : List γ} {BOUND : List δ} (hbound : bound.length ≤ BOUND.length) (a : α)
    (h : p.Ahead ws P) : Follows ws l (iterate step bound a) p (iterate STEP BOUND a) P := by
  induction bound generalizing BOUND a p P with
  | nil =>
    intro b r hr
    rw [iterate] at hr
    obtain ⟨s, q, hq, hs⟩ := bind_eq_ok hr
    cases s with
    | inl a' => cases hs
    | inr b' =>
      cases hs
      obtain ⟨hclears, hl | ⟨Q, hQ, hahead⟩⟩ := hstep a p P h _ _ hq
      · exact ⟨hclears, .inl hl⟩
      · refine ⟨hclears, .inr ⟨Q, ?_, hahead⟩⟩
        cases BOUND <;> rw [iterate, bind_of_ok hQ] <;> rfl
  | cons c bound ih =>
    intro b r hr
    rw [iterate] at hr
    obtain ⟨s, q, hq, hs⟩ := bind_eq_ok hr
    rcases BOUND with _ | ⟨C, BOUND⟩
    · simp at hbound
    have hbound' : bound.length ≤ BOUND.length := by simpa using hbound
    obtain ⟨hclears, ⟨hl, hqend⟩ | ⟨Q, hQ, hahead⟩⟩ := hstep a p P h _ _ hq
    · cases s with
      | inl a' => exact absurd hqend (hend hl a p P a' q h hq)
      | inr b' =>
        cases hs
        exact ⟨hclears, .inl ⟨hl, hqend⟩⟩
    · rw [iterate, bind_of_ok hQ]
      cases s with
      | inl a' =>
        obtain ⟨hclears', hr⟩ := ih hbound' a' hahead b r hs
        exact ⟨hclears.trans hclears', hr⟩
      | inr b' =>
        cases hs
        exact ⟨hclears, .inr ⟨Q, rfl, hahead⟩⟩

/-! ## Skipping tokens -/

theorem skipStep_of_false (hf : f p.token.kind = false) : skipStep f () p = .ok (.inr ()) p := by
  change (if f p.token.kind then _ else _ : Compile _) p = _
  rw [if_neg (by simp [hf])]
  rfl

theorem skipStep_of_true (hf : f p.token.kind = true) :
    skipStep f () p = (advance >>= fun _ => pure (.inl ())) p := by
  change (if f p.token.kind then _ else _ : Compile _) p = _
  rw [if_pos hf]

/-- Skipping stops at the first token of another kind. -/
theorem skips_of_iterate (hf : f .eof = false) {bound : List Reading}
    (hend : p.sights.getLast? = some .eof) (hq : iterate (skipStep f) bound () p = .ok () q) :
    ∃ us, p.Skips us q ∧ (∀ u ∈ us, f u.1.1 = true) ∧ f q.token.kind = false := by
  have hstop {p : Pass} (hk : f p.token.kind = false)
      (h : (pure () : Compile Unit) p = .ok () q) :
      ∃ us, p.Skips us q ∧ (∀ u ∈ us, f u.1.1 = true) ∧ f q.token.kind = false := by
    cases h
    exact ⟨[], .refl _, nofun, hk⟩
  induction bound generalizing p with
  | nil =>
    rw [iterate] at hq
    cases hk : f p.token.kind with
    | false =>
      rw [bind_of_ok (skipStep_of_false hk)] at hq
      exact hstop hk hq
    | true =>
      obtain ⟨s, r, hr, hs⟩ := bind_eq_ok hq
      rw [skipStep_of_true hk] at hr
      obtain ⟨_, r', -, hr⟩ := bind_eq_ok hr
      cases hr
      cases hs
  | cons c bound ih =>
    rw [iterate] at hq
    cases hk : f p.token.kind with
    | false =>
      rw [bind_of_ok (skipStep_of_false hk)] at hq
      exact hstop hk hq
    | true =>
      obtain ⟨s, r, hr, hs⟩ := bind_eq_ok hq
      rw [skipStep_of_true hk] at hr
      obtain ⟨_, r', hr', hr⟩ := bind_eq_ok hr
      cases hr
      have heof : p.token.kind ≠ .eof := by
        intro heof
        rw [heof, hf] at hk
        cases hk
      have hu := skips_of_advance (upcoming_ne_nil hend heof) hr'
      have hrest : r.sights.getLast? = some .eof := by
        rw [hu.sights] at hend
        simpa [Pass.sights] using hend
      obtain ⟨us, hus, hall, hlast⟩ := ih hrest hs
      refine ⟨_, hu.trans hus, ?_, hlast⟩
      exact List.forall_mem_cons.2 ⟨by rw [Token.word_fst]; exact hk, hall⟩

theorem skips_of_skipWhile (hf : f .eof = false) (hend : p.sights.getLast? = some .eof)
    (hq : skipWhile f p = .ok () q) :
    ∃ us, p.Skips us q ∧ (∀ u ∈ us, f u.1.1 = true) ∧ f q.token.kind = false :=
  skips_of_iterate hf hend hq

theorem exists_skipWhile {us vs : List Sight} {v : Sight} (h : p.sights = us ++ v :: vs)
    (hus : ∀ u ∈ us, f u.1.1 = true ∧ u.2 = false) (hv : f v.1.1 = false) (hclear : v.2 = false) :
    ∃ q, skipWhile f p = .ok () q ∧ p.Skips us q := by
  have hloop {bound : List Reading} (hbound : us.length ≤ bound.length) :
      ∃ q, iterate (skipStep f) bound () p = .ok () q ∧ p.Skips us q := by
    induction us generalizing p bound with
    | nil =>
      have hf : f p.token.kind = false := kind_of_sights h ▸ hv
      refine ⟨p, ?_, .refl p⟩
      cases bound <;> rw [iterate, bind_of_ok (skipStep_of_false hf)] <;> rfl
    | cons u us ih =>
      rcases bound with _ | ⟨c, bound⟩
      · simp at hbound
      have hf : f p.token.kind = true := kind_of_sights h ▸ (hus u List.mem_cons_self).1
      have hnext : ∃ w ws, us ++ v :: vs = w :: ws ∧ w.2 = false := by
        cases us with
        | nil => exact ⟨v, vs, rfl, hclear⟩
        | cons w us => exact ⟨w, us ++ v :: vs, rfl, (hus w (by simp)).2⟩
      obtain ⟨w, ws, hw, hwclear⟩ := hnext
      obtain ⟨r, hr, hskip⟩ := exists_advance (h.trans (congrArg (u :: ·) hw)) hwclear
      have hrs : r.sights = us ++ v :: vs :=
        (List.cons.inj (hskip.sights.symm.trans h)).2
      obtain ⟨q, hq, hqs⟩ := ih hrs (fun w hw => hus w (List.mem_cons_of_mem u hw))
        (Nat.le_of_succ_le_succ hbound)
      refine ⟨q, ?_, hskip.trans hqs⟩
      rw [iterate, bind_of_ok (a := .inl ()) (q := r) (by rw [skipStep_of_true hf, bind_of_ok hr]; rfl)]
      exact hq
  refine hloop ?_
  have hlen := congrArg List.length h
  simp [Pass.sights] at hlen
  omega

/-- Nothing is skipped at a token of another kind. -/
theorem skipWhile_of_false (hf : f p.token.kind = false) : skipWhile f p = .ok () p := by
  change iterate (skipStep f) p.upcoming () p = _
  cases p.upcoming <;> rw [iterate, bind_of_ok (skipStep_of_false hf)] <;> rfl

/-- Skipping comes to the end of the chunk only if it skips line feeds. -/
theorem follows_skipWhile (h : p.Ahead ws P) (hf : f .eof = false) :
    Follows ws (ws ≠ [.eof] ∧ f .newline = true) (skipWhile f) p (skipWhile f) P := by
  intro _ q hq
  obtain ⟨us, hskip, hall, hstop⟩ := skips_of_skipWhile hf h.getLast? hq
  refine ⟨hskip.clears, ?_⟩
  rcases h.next hskip with ⟨hws, hat, hline⟩ | ⟨hstay, tail, hPs⟩
  · obtain ⟨u, hu, hkind⟩ := Option.map_eq_some_iff.1 hline
    exact .inl ⟨⟨hws, hkind ▸ hall u (List.mem_of_getLast? hu)⟩, hat⟩
  · obtain ⟨Q, hQ, hSkip⟩ := exists_skipWhile hPs (fun u hu => ⟨hall u hu, hskip.clear u hu⟩)
      (by rw [Token.word_fst]; exact hstop) rfl
    exact .inr ⟨Q, hQ, h.skips hskip hSkip hstay⟩

/-! ## Code, labels and tables -/

theorem stays_modify {g G : Pass → Pass} (h : (g p).Along T (G P))
    (hs : (g p).sights = p.sights) : Stays T (modify g) p (modify G) P :=
  stays_of_ok rfl rfl hs h

theorem stays_modifyBlocks (h : p.Along T P) (f : BlockStack → BlockStack) :
    Stays T (modifyBlocks f) p (modifyBlocks f) P :=
  stays_modify { h with blocks := congrArg f h.blocks } rfl

/-- The functions that receive code are the same but for lines. -/
theorem function_cases (h : Session.Alike p.toSession P.toSession) :
    Stops function p ∨
      ∃ f F, function p = .ok f p ∧ function P = .ok F P ∧ F.unlined = f.unlined := by
  have hmap : (P.program.function? P.target).map Function.unlined =
      (p.program.function? p.target).map Function.unlined := by
    rw [← Program.function?_unlined, h.program, h.target, Program.function?_unlined]
  have hfunction (p : Pass) {f : Function} (hf : p.program.function? p.target = some f) :
      function p = .ok f p := by
    simp only [function, get_bind, hf]
    rfl
  cases hf : p.program.function? p.target with
  | none =>
    left
    intro a q hq
    simp only [function, get_bind, hf] at hq
    cases hq
  | some f =>
    rw [hf, Option.map_some, Option.map_eq_some_iff] at hmap
    obtain ⟨F, hF, heq⟩ := hmap
    exact .inr ⟨f, F, hfunction p hf, hfunction P hF, heq⟩

theorem stays_function (h : p.Along T P) {k K : Function → Compile α}
    (hk : ∀ f F, F.unlined = f.unlined → Stays T (k f) p (K F) P) :
    Stays T (function >>= k) p (function >>= K) P := by
  obtain hstop | ⟨f, F, hp, hP, heq⟩ := function_cases h.toAlike
  · exact hstop.bind.stays
  · unfold Stays
    rw [bind_of_ok hp, bind_of_ok hP]
    exact hk f F heq

theorem stays_putFunction (h : p.Along T P) {f F : Function} (hF : F.unlined = f.unlined) :
    Stays T (putFunction f) p (putFunction F) P := by
  refine stays_modify { h with program := ?_ } rfl
  simp only [h.target]
  exact Program.unlined_modifyFunction h.program (fun _ _ _ => hF) _

/-- What `m` does on `p`, `M` does on `P`, and nothing but the program changes. -/
def Reprograms (m : Compile α) (p : Pass) (M : Compile α) (P : Pass) : Prop :=
  ∀ a q, m p = .ok a q → ∃ R R', q = { p with program := R } ∧
    M P = .ok a { P with program := R' } ∧ R'.unlined = R.unlined

theorem Reprograms.stays (h : Reprograms m p M P) (hp : p.Along T P) : Stays T m p M P := by
  intro a q hq
  obtain ⟨R, R', rfl, hM, hR⟩ := h a q hq
  exact ⟨rfl, _, hM, { hp with program := hR }⟩

theorem reprograms_modifyFunction (h : Session.Alike p.toSession P.toSession)
    (hchange : ∀ f F : Function, F.unlined = f.unlined → (change' F).unlined = (change f).unlined) :
    Reprograms (modifyFunction change) p (modifyFunction change') P := by
  have hhas : P.program.hasFunction P.target = p.program.hasFunction p.target := by
    rw [← Program.hasFunction_unlined, h.program, h.target, Program.hasFunction_unlined]
  intro a q hq
  change (if p.program.hasFunction p.target then _ else _ : Compile _) p = _ at hq
  change ∃ _ _, _ ∧ (if P.program.hasFunction P.target then _ else _ : Compile _) P = _ ∧ _
  rw [hhas]
  split at hq
  · next hfunction =>
    cases hq
    rw [if_pos hfunction]
    refine ⟨_, _, rfl, rfl, ?_⟩
    rw [h.target]
    exact Program.unlined_modifyFunction h.program hchange _
  · cases hq

theorem stays_modifyFunction (h : p.Along T P)
    (hchange : ∀ f F : Function, F.unlined = f.unlined → (change' F).unlined = (change f).unlined) :
    Stays T (modifyFunction change) p (modifyFunction change') P :=
  (reprograms_modifyFunction h.toAlike hchange).stays h

theorem reprograms_emitWith (h : Session.Alike p.toSession P.toSession) (op : Opcode)
    (operands : List Nat) : Reprograms (emitWith op operands) p (emitWith op operands) P := by
  refine reprograms_modifyFunction h fun f F hF => ?_
  have hcode : F.code.unlined = f.code.unlined := congrArg Function.code hF
  simp only [Function.unlined, Function.mk.injEq] at hF
  simp only [Function.unlined, Code.unlined_write, hcode, hF]

theorem stays_emitWith (h : p.Along T P) (op : Opcode) (operands : List Nat) :
    Stays T (emitWith op operands) p (emitWith op operands) P :=
  (reprograms_emitWith h.toAlike op operands).stays h

theorem stays_emit (h : p.Along T P) (op : Opcode) :
    Stays T (emit op) p (emit op) P := stays_emitWith h op []

theorem intern_eq (f : Program → Except Diagnostic (Nat × Program)) (p : Pass) :
    intern f p = match f p.program with
      | .ok (i, program) => .ok i { p with program := program }
      | .error d => .error (.refused d) p := by
  simp only [intern, get_bind]
  cases f p.program <;> rfl

theorem reprograms_intern (h : Session.Alike p.toSession P.toSession)
    {f F : Program → Except Diagnostic (Nat × Program)} (hf : Program.Interns f F) :
    Reprograms (intern f) p (intern F) P := by
  intro a q hq
  rw [intern_eq] at hq ⊢
  cases hi : f p.program with
  | error d =>
    rw [hi] at hq
    cases hq
  | ok r =>
    rw [hi] at hq
    cases hq
    obtain ⟨R, hR, heq⟩ := hf h.program hi
    exact ⟨_, R, rfl, by rw [hR], heq⟩

theorem stays_intern (h : p.Along T P) {f F : Program → Except Diagnostic (Nat × Program)}
    (hf : Program.Interns f F) : Stays T (intern f) p (intern F) P :=
  (reprograms_intern h.toAlike hf).stays h

theorem size_of_unlined {f F : Function} (hF : F.unlined = f.unlined) :
    F.code.size = f.code.size := by
  have hcode : F.code.unlined = f.code.unlined := congrArg Function.code hF
  rw [← Code.size_unlined, hcode, Code.size_unlined]

theorem stays_resolveExit (h : p.Along T P) : Stays T resolveExit p resolveExit P := by
  unfold resolveExit
  rw [stays_get, h.exits]
  split
  · exact stays_pure h ()
  · next exit exits _ =>
    refine Stays.bind (stays_of_ok rfl rfl rfl { h with exits := rfl }) fun _ q Q _ hq => ?_
    refine stays_function hq fun f F hF => ?_
    have hlabels : F.labels = f.labels := (Function.mk.inj hF).2.2.1
    rw [hlabels, size_of_unlined hF]
    split
    · refine stays_putFunction hq ?_
      simp only [Function.unlined, Function.mk.injEq] at hF ⊢
      simp [hF]
    · exact (stops_throw _).stays

end Compile

end DeskCalc
