import DeskCalc.Proofs.Compiles
import DeskCalc.Proofs.Expression.Bounds

/-!
# What expressions are made of

Expressions are compiled out of few operations: moving to the next token, asking for a delimiter,
complaining, letting operators wait, entering names, and writing instructions, none of which
returns from a function. What is known of two runs of each of these, side by side, and is kept by
sequences (`Parts`), is known of two runs of the whole (`Parts.expression`). What is known of one
run is a special case (`Keeping`).

A part looks at the kind of the current token, and at its text only where it is a number, a string
or a name. It looks at the open blocks only to ask for a delimiter, and at the tokens to come only
for a bound. Of the operators that wait it looks at those of its own expression only, so that others
may lie under them in the second run (`Parts.under`).
-/

namespace DeskCalc

/-- The instruction returns from a function. -/
def Opcode.isReturn : Opcode → Bool
  | .ret | .ret0 | .retVoid => true
  | _ => false

theorem Operator.plain_of_opcode? {op : Operator} {code : Opcode} (h : op.opcode? = some code) :
    code.isReturn = false ∧ code.operandCount = 0 ∧ code ≠ .query .read := by
  cases op <;> cases h <;> exact ⟨rfl, rfl, nofun⟩

/-- What expressions look at is the same in both tokens. -/
structure Token.Like (t T : Token) : Prop where
  kind : T.kind = t.kind
  digits : t.kind = .number → Compile.digits T.text = Compile.digits t.text
  text : t.kind = .string ∨ t.kind = .name → T.text = t.text

theorem Token.Like.of_eq {t T : Token} (h : T = t) : t.Like T :=
  h ▸ ⟨rfl, fun _ => rfl, fun _ => rfl⟩

/-- The instruction is one that expressions are compiled to. It reads only if `reads`, and it calls
only functions with a name that is `Fit`. -/
def Symbolic.Usual (reads : Bool) (Fit : String → Prop) : Symbolic → Prop
  | .plain op => op.isReturn = false ∧ op.operandCount = 0 ∧ (op = .query .read → reads = true)
  | .number text => ∃ t, text = Compile.digits t
  | .call _ name => Fit name
  | _ => True

/-- A usual instruction returns from no function, and has its operands. -/
theorem Program.Denotes.usual {P : Program} {reads : Bool} {Fit : String → Prop} {s : Symbolic}
    {i : Command} (h : P.Denotes s i) (hs : s.Usual reads Fit) :
    i.1.isReturn = false ∧ i.2.length = i.1.operandCount ∧
      (i.1 = .query .read → reads = true) := by
  cases s with
  | plain op =>
    cases h
    exact ⟨hs.1, hs.2.1.symm, hs.2.2⟩
  | number text | string text | var name | elem name | array name =>
    obtain ⟨k, rfl, -⟩ := h
    exact ⟨rfl, rfl, nofun⟩
  | call count name =>
    obtain ⟨k, f, rfl, -⟩ := h
    exact ⟨rfl, rfl, nofun⟩

/-- The source is refused for one of the spans, or it is not the source that is to blame. -/
def Stop.Blames (known : Span → Prop) : Stop → Prop
  | .refused d => known d.span
  | .fault _ => True

/-- All that lies ahead of `q` lies ahead of `p`. -/
def Pass.Precedes (p q : Pass) : Prop := q.token ∈ p.rest ∧ q.upcoming ⊆ p.upcoming

theorem Pass.Precedes.refl (p : Pass) : p.Precedes p := ⟨List.mem_cons_self, List.Subset.refl _⟩

theorem Pass.Precedes.rest {p q : Pass} (h : p.Precedes q) : q.rest ⊆ p.rest :=
  List.cons_subset.2 ⟨h.1, fun _ ht => List.mem_cons_of_mem _ (List.map_subset _ h.2 ht)⟩

namespace Compile

variable {α β γ : Type} {p P q Q : Pass} {m M : Compile α} {step STEP : α → Compile (α ⊕ β)}
  {f F : α → Compile β}

theorem exists_of_intern {f : Program → Except Diagnostic (Nat × Program)} {k : Nat}
    (h : intern f p = .ok k q) : ∃ P, f p.program = .ok (k, P) ∧ q = { p with program := P } := by
  simp only [intern, get_bind] at h
  cases hf : f p.program with
  | error d =>
    rw [hf] at h
    cases h
  | ok r =>
    rw [hf] at h
    cases h
    exact ⟨_, rfl, rfl⟩

/-- What is known of two runs of the operations that expressions are compiled with, and of what is
put together from them. -/
structure Parts where
  /-- Both passes are at the same place. -/
  Rel (p P : Pass) : Prop
  /-- What comes of `m` on `p` and of `M` on `P`. -/
  Out {α : Type} (m : Compile α) (p : Pass) (M : Compile α) (P : Pass) : Prop
  Like (t T : Token) : Prop
  Fit (name : String) : Prop
  reads : Bool
  /-- The operators that wait in the second pass under those of the first. -/
  under : List Operator
  like {t T : Token} (h : Like t T) : t.Like T
  view {p P : Pass} (h : Rel p P) :
    Like p.token P.token ∧ P.previous = p.previous ∧ P.operators = p.operators ++ under
  fit {p P : Pass} (h : Rel p P) (hk : p.token.kind = .name) : Fit p.token.text
  pure {α : Type} {p P : Pass} (h : Rel p P) (a : α) : Out (pure a) p (pure a) P
  refuse {α : Type} {p P : Pass} {t T : Token} (h : Rel p P) (ht : Like t T)
    (cause : Cause) (name : Token → Option String) :
    Out (throw (.refused ⟨cause, t.span, name t⟩) : Compile α) p
      (throw (.refused ⟨cause, T.span, name T⟩)) P
  bind {α β : Type} {p P : Pass} {m M : Compile α} {f F : α → Compile β} (hm : Out m p M P)
    (hf : ∀ a q Q, m p = .ok a q → Rel q Q → Out (f a) q (F a) Q) : Out (m >>= f) p (M >>= F) P
  get {α : Type} {p P : Pass} {f F : Pass → Compile α} (h : Out (f p) p (F P) P) :
    Out (get >>= f) p (get >>= F) P
  exceed {α : Type} {p P : Pass} (h : Rel p P) :
    Out (throw (.fault .unbounded) : Compile α) p (throw (.fault .unbounded)) P
  bounded {α : Type} {p P : Pass} {f F : List Reading → Compile α} (h : Rel p P) (hf : Bounded f)
    (hF : Bounded F) (hgood : ∀ u, Out (f u) p (F u) P) :
    Out (f p.upcoming) p (F P.upcoming) P
  advance {p P : Pass} (h : Rel p P) : Out advance p advance P
  atDelimiter {p P : Pass} (h : Rel p P) : Out atDelimiter p atDelimiter P
  report {p P : Pass} {t T : Token} (h : Rel p P) (ht : Like t T) (v : Violation) :
    Out (report v t.span) p (report v T.span) P
  operators {p P : Pass} (h : Rel p P) {ops Ops : List Operator} (hops : Ops = ops ++ under) :
    Out (set { p with operators := ops }) p (set { P with operators := Ops }) P
  emit {p P : Pass} {s : Symbolic} {i : Command} (h : Rel p P) (hs : s.Usual reads Fit)
    (hi : p.program.Denotes s i) : Out (emitWith i.1 i.2) p (emitWith i.1 i.2) P
  enter {p P : Pass} {t T : Token} (h : Rel p P) (ht : Like t T) {e : TableEntry} (he : e.Fits Fit) :
    Out (intern (e.enter t.span)) p (intern (e.enter T.span)) P
  suppressValue {p P : Pass} (h : Rel p P) (t : Tally) : Out (suppressValue t) p (suppressValue t) P

/-- The property holds of these two computations. -/
class Alongside (T : Parts) (m M : Compile α) : Prop where
  out : ∀ p P, T.Rel p P → T.Out m p M P

/-- The property holds of this computation. -/
abbrev Fine (T : Parts) (m : Compile α) : Prop := Alongside T m m

variable {T : Parts}

/-! ## Rules -/

theorem Parts.run (T : Parts) (h : T.Rel p P) [hm : Alongside T m M] : T.Out m p M P := hm.out p P h

theorem Parts.get_kind (T : Parts) (h : T.Rel p P) : P.token.kind = p.token.kind :=
  (T.like (T.view h).1).kind

/-- The second half does not depend on how the first one ended. -/
theorem Parts.andThen (T : Parts) (hm : T.Out m p M P) [hf : ∀ a, Alongside T (f a) (F a)] :
    T.Out (m >>= f) p (M >>= F) P :=
  T.bind hm fun a q Q _ h => (hf a).out q Q h

instance alongside_bind [hm : Alongside T m M] [hf : ∀ a, Alongside T (f a) (F a)] :
    Alongside T (m >>= f) (M >>= F) :=
  ⟨fun p P h => T.andThen (hm.out p P h)⟩

theorem Alongside.bind (hm : Alongside T m M) (hf : ∀ a, Alongside T (f a) (F a)) :
    Alongside T (m >>= f) (M >>= F) :=
  alongside_bind

instance fine_pure (a : α) : Fine T (pure a : Compile α) := ⟨fun _ _ h => T.pure h a⟩

instance alongside_ite {c : Prop} [Decidable c] {n N : Compile α} [hm : Alongside T m M]
    [hn : Alongside T n N] : Alongside T (if c then m else n) (if c then M else N) := by
  split
  · exact hm
  · exact hn

/-- A loop whose state is always one with `I`. -/
theorem alongside_iterate_of {I : α → Prop} (h : ∀ a, I a → Alongside T (step a) (STEP a))
    (hI : ∀ a p a' q, I a → step a p = .ok (.inl a') q → I a') (bound : List γ) (a : α) (ha : I a) :
    Alongside T (iterate step bound a) (iterate STEP bound a) := by
  induction bound generalizing a with
  | nil =>
    refine (h a ha).bind fun r => ?_
    cases r with
    | inl a => exact ⟨fun _ _ => T.exceed⟩
    | inr b => exact fine_pure b
  | cons _ bound ih =>
    refine ⟨fun p P hp => T.bind ((h a ha).out p P hp) fun r q Q hr hq => ?_⟩
    cases r with
    | inl a' => exact (ih a' (hI a p a' q ha hr)).out q Q hq
    | inr b => exact T.pure hq b

theorem alongside_perToken_of {I : α → Prop} (h : ∀ a, I a → Alongside T (step a) (STEP a))
    (hI : ∀ a p a' q, I a → step a p = .ok (.inl a') q → I a') (a : α) (ha : I a) :
    Alongside T (perToken step a) (perToken STEP a) where
  out p P hp := T.get (f := fun p => iterate step p.upcoming a)
    (F := fun p => iterate STEP p.upcoming a) (T.bounded hp (bounded_iterate a) (bounded_iterate a)
      fun u => (alongside_iterate_of h hI u a ha).out p P hp)

instance alongside_iterate [h : ∀ a, Alongside T (step a) (STEP a)] (bound : List γ) (a : α) :
    Alongside T (iterate step bound a) (iterate STEP bound a) :=
  alongside_iterate_of (I := fun _ => True) (fun a _ => h a) (fun _ _ _ _ _ _ => trivial) bound a
    trivial

instance alongside_perToken [h : ∀ a, Alongside T (step a) (STEP a)] (a : α) :
    Alongside T (perToken step a) (perToken STEP a) :=
  alongside_perToken_of (I := fun _ => True) (fun a _ => h a) (fun _ _ _ _ _ _ => trivial) a trivial

/-! ## Tokens -/

theorem Parts.refuseOf (T : Parts) {t t' : Token} (ht : T.Like t t') (cause : Cause)
    (name : Token → Option String) :
    Alongside T (Compile.refuse cause t.span (name t) : Compile α)
      (Compile.refuse cause t'.span (name t')) :=
  ⟨fun _ _ h => T.refuse h ht cause name⟩

instance fine_refuseHere (cause : Cause) : Fine T (refuseHere cause : Compile α) :=
  ⟨fun _ _ h => T.get (T.refuse h (T.view h).1 cause fun _ => none)⟩

instance fine_unexpected : Fine T (unexpected : Compile α) where
  out p P h := by
    refine T.get ?_
    dsimp only
    rw [T.get_kind h]
    split
    · exact T.refuse h (T.view h).1 .unexpectedEnd fun _ => none
    · exact T.refuse h (T.view h).1 .unexpectedToken fun _ => some p.token.kind.description

theorem Parts.kind (T : Parts) (h : T.Rel p P) {f F : Token.Kind → Compile α}
    (hf : T.Out (f p.token.kind) p (F p.token.kind) P) : T.Out (kind >>= f) p (kind >>= F) P := by
  rw [← T.get_kind h] at hf
  nth_rewrite 1 [T.get_kind h] at hf
  exact T.get (f := fun p => f p.token.kind) (F := fun p => F p.token.kind) hf

instance fine_kind : Fine T kind := ⟨fun _ _ h => T.kind (f := Pure.pure) h (T.pure h _)⟩

instance fine_isAt (k : Token.Kind) : Fine T (isAt k) :=
  ⟨fun _ _ h => T.kind (f := fun k' => Pure.pure (k' == k)) (F := fun k' => Pure.pure (k' == k)) h
    (T.pure h _)⟩

instance fine_atDelimiter : Fine T atDelimiter := ⟨fun _ _ => T.atDelimiter⟩

instance alongside_reportHere (v : Violation) [hm : Alongside T m M] :
    Alongside T (do report v (← here); m) (do report v (← here); M) :=
  ⟨fun _ _ h => T.get (f := fun p => do report v p.token.span; m)
    (F := fun p => do report v p.token.span; M) (T.andThen (T.report h (T.view h).1 v))⟩

instance fine_reportHere (v : Violation) : Fine T (do report v (← here)) :=
  ⟨fun _ _ h => T.get (f := fun p => report v p.token.span) (F := fun p => report v p.token.span)
    (T.report h (T.view h).1 v)⟩

instance fine_advance : Fine T advance := ⟨fun _ _ => T.advance⟩

instance fine_expect (k : Token.Kind) : Fine T (expect k) := by
  unfold expect
  infer_instance

instance fine_skipWhile (kinds : Token.Kind → Bool) : Fine T (skipWhile kinds) := by
  unfold skipWhile skipStep
  infer_instance

instance fine_skipNewlines : Fine T skipNewlines := fine_skipWhile _

/-! ## One run -/

/-- What is known of one run: where it begins with `Pre` it ends with `Pre` and is `Done`, or it
stops and is `Left`. -/
structure Keeping where
  Pre (p : Pass) : Prop
  Done (p q : Pass) : Prop
  Left (e : Stop) (p q : Pass) : Prop
  /-- The spans that the source can be refused for. -/
  Known (span : Span) : Prop
  Fit (name : String) : Prop
  reads : Bool
  known {p : Pass} (h : Pre p) :
    Known p.token.span ∧ ∀ r ∈ p.upcoming, ∀ n ∈ r.error, Known n.toDiagnostic.span
  fit {p : Pass} (h : Pre p) (hk : p.token.kind = .name) : Fit p.token.text
  trans {p q r : Pass} (h : Done p q) (h' : Done q r) : Done p r
  left {p : Pass} (h : Pre p) {e : Stop} (he : e.Blames Known) : Left e p p
  leave {p q r : Pass} {e : Stop} (h : Done p q) (h' : Left e q r) : Left e p r
  /-- Nothing that counts changes while tokens are read. -/
  done {p q : Pass} (h : Pre p) (hahead : p.Precedes q) (hprogram : q.program = p.program)
    (htarget : q.target = p.target) (hblocks : q.blocks = p.blocks) : Pre q ∧ Done p q
  emit {p : Pass} {s : Symbolic} {i : Command} (h : Pre p) (hs : s.Usual reads Fit)
    (hi : p.program.Denotes s i) :
    Ensures (emitWith i.1 i.2) p (fun _ q => Pre q ∧ Done p q) fun e => Left e p
  enter {p : Pass} (h : Pre p) {e : TableEntry} {span : Span} (he : e.Fits Fit) (hspan : Known span) :
    Ensures (intern (e.enter span)) p (fun _ q => Pre q ∧ Done p q) fun e => Left e p
  suppressValue {p : Pass} (h : Pre p) (t : Tally) :
    Ensures (suppressValue t) p (fun _ q => Pre q ∧ Done p q) fun e => Left e p

namespace Keeping

variable (K : Keeping) {m : Compile α}

/-- What is known of `m` on `p`. -/
def Keeps (m : Compile α) (p : Pass) : Prop :=
  Ensures m p (fun _ q => K.Pre q ∧ K.Done p q) fun e => K.Left e p

theorem stay (h : K.Pre p) : K.Pre p ∧ K.Done p p := K.done h (.refl p) rfl rfl rfl

theorem bind {f : α → Compile β} (hm : K.Keeps m p)
    (hf : ∀ a q, m p = .ok a q → K.Pre q → K.Keeps (f a) q) : K.Keeps (m >>= f) p := by
  refine Ensures.bind (hm.and (ensures_self m)) ?_ fun _ _ => And.left
  rintro a q ⟨⟨hq, hdone⟩, hrun⟩
  exact (hf a q hrun hq).mono (fun _ r hr => ⟨hr.1, K.trans hdone hr.2⟩) fun _ _ => K.leave hdone

theorem advance (h : K.Pre p) : K.Keeps advance p := by
  simp only [Keeps, Compile.advance, ensures_bind, ensures_get]
  split
  · exact K.done h (.refl p) rfl rfl rfl
  · next r rest hu =>
    have hmem : r ∈ p.upcoming := hu ▸ List.mem_cons_self
    have hq (warnings : List Diagnostic) := K.done (q := { p with
      previous := p.token.kind, token := r.token, upcoming := rest, warnings := warnings }) h
      ⟨List.mem_cons_of_mem _ (List.mem_map_of_mem hmem), hu ▸ List.subset_cons_self r rest⟩ rfl rfl rfl
    simp only [ensures_bind, ensures_set]
    split
    · next n hn => exact K.leave (hq _).2 (K.left (hq _).1 ((K.known h).2 r hmem n hn))
    · exact hq _

theorem report (h : K.Pre p) (v : Violation) {span : Span} (hspan : K.Known span) :
    K.Keeps (report v span) p := by
  simp only [Keeps, Compile.report, ensures_bind, ensures_get]
  split
  · exact K.stay h
  · exact K.done h (.refl p) rfl rfl rfl
  · exact K.left h hspan

/-- One run is known as two that are the same. -/
def parts : Parts where
  Rel p P := P = p ∧ K.Pre p
  Out m p _ _ := K.Keeps m p
  Like t T := T = t ∧ K.Known t.span
  Fit := K.Fit
  reads := K.reads
  under := []
  like h := .of_eq h.1
  view h := by
    obtain ⟨rfl, h⟩ := h
    exact ⟨⟨rfl, (K.known h).1⟩, rfl, (List.append_nil _).symm⟩
  fit h hk := K.fit h.2 hk
  pure h _ := K.stay h.2
  refuse h ht _ _ := K.left h.2 ht.2
  bind hm hf := K.bind hm fun a q hq h => hf a q q hq ⟨rfl, h⟩
  get h := h
  exceed h := K.left h.2 trivial
  bounded _ _ _ hgood := hgood _
  advance h := K.advance h.2
  atDelimiter h := K.stay h.2
  report h ht v := K.report h.2 v ht.2
  operators h _ _ _ := K.done h.2 (.refl _) rfl rfl rfl
  emit h hs hi := K.emit h.2 hs hi
  enter h ht _ he := K.enter h.2 he ht.2
  suppressValue h t := K.suppressValue h.2 t

theorem keeps [h : Fine K.parts m] (hp : K.Pre p) : K.Keeps m p := h.out p p ⟨rfl, hp⟩

theorem fine (h : ∀ p, K.Pre p → K.Keeps m p) : Fine K.parts m :=
  ⟨fun p _ hp => h p hp.2⟩

theorem andThen {f : α → Compile β} (hm : K.Keeps m p) [hf : ∀ a, Fine K.parts (f a)] :
    K.Keeps (m >>= f) p :=
  K.bind hm fun _ _ _ hq => K.keeps hq

end Keeping

/-- **Tables grow.** -/
def growing : Keeping where
  Pre _ := True
  Done p q := p.program.Grows q.program
  Left _ _ _ := True
  Known _ := True
  Fit _ := True
  reads := true
  known _ := ⟨trivial, fun _ _ _ _ => trivial⟩
  fit _ _ := trivial
  trans := .trans
  left _ _ _ := trivial
  leave _ _ := trivial
  done _ _ hprogram _ _ := ⟨trivial, hprogram ▸ .refl _⟩
  emit {p _ i} _ _ _ := by
    simp only [emitWith, here, modifyFunction, ensures_bind, ensures_get, ensures_pure, ensures_ite,
      ensures_set, ensures_throw]
    split
    · exact ⟨trivial, .modify⟩
    · trivial
  enter {p} _ e span _ _ := by
    refine (ensures_self _).mono (fun k q hq => ?_) fun _ _ _ => trivial
    obtain ⟨P, hP, rfl⟩ := exists_of_intern hq
    exact ⟨trivial, (TableEntry.extends_enter hP).1.grows⟩
  suppressValue {p} _ t := by
    simp only [Compile.suppressValue, function, here, putFunction, ensures_bind, ensures_get]
    split
    · next f hf =>
      simp only [ensures_pure]
      split
      · exact ⟨trivial, .put⟩
      · exact ⟨trivial, .refl _⟩
    · trivial

theorem Fine.grows [h : Fine growing.parts m] {a : α} (hm : m p = .ok a q) :
    p.program.Grows q.program :=
  ((h.out p p ⟨rfl, trivial⟩ : growing.Keeps m p).ok hm).2

/-! ## Names and instructions -/

theorem fine_emit {op : Opcode}
    (hop : op.isReturn = false ∧ op.operandCount = 0 ∧ op ≠ .query .read) : Fine T (emit op) :=
  ⟨fun _ _ h => T.emit (s := .plain op) (i := (op, [])) h
    ⟨hop.1, hop.2.1, fun hread => absurd hread hop.2.2⟩ rfl⟩

/-- Something is entered, and what follows relies on its index. -/
theorem Parts.entering (T : Parts) (h : T.Rel p P) {t t' : Token} (ht : T.Like t t') {e : TableEntry}
    (he : e.Fits T.Fit) {f F : Nat → Compile α}
    (hf : ∀ k q Q, T.Rel q Q → e.At q.program k → T.Out (f k) q (F k) Q) :
    T.Out (intern (e.enter t.span) >>= f) p (intern (e.enter t'.span) >>= F) P := by
  refine T.bind (T.enter h ht he) fun k q Q hq hrel => hf k q Q hrel ?_
  obtain ⟨R, hR, rfl⟩ := exists_of_intern hq
  exact (TableEntry.extends_enter hR).2

/-- An instruction with an index is written, and then it is no longer needed. -/
theorem Parts.writing (T : Parts) (h : T.Rel p P) {s : Symbolic} (hs : s.Usual T.reads T.Fit)
    {op : Opcode} {operands : List Nat} (hi : p.program.Denotes s (op, operands)) [Alongside T m M] :
    T.Out (emitWith op operands >>= fun _ => m) p (emitWith op operands >>= fun _ => M) P :=
  T.andThen (T.emit (i := (op, operands)) h hs hi)

/-! ## Operands -/

theorem Parts.string (T : Parts) (h : T.Rel p P) (hk : p.token.kind = .string) :
    T.Out string p string P := by
  obtain ⟨ht, -, -⟩ := T.view h
  have hcontents : P.token.contents = p.token.contents := by
    rw [Token.contents, (T.like ht).text (.inl hk), Token.contents]
  refine T.get ?_
  dsimp only
  rw [hcontents]
  exact T.entering h ht (e := .constant (.string p.token.contents)) trivial fun k q Q hq hk =>
    T.writing hq (s := .string p.token.contents) trivial ⟨k, rfl, hk⟩

theorem Parts.number (T : Parts) (h : T.Rel p P) (hk : p.token.kind = .number) :
    T.Out number p number P := by
  obtain ⟨ht, -, -⟩ := T.view h
  have hzero : Fine T (Compile.emit .zero) := fine_emit ⟨rfl, rfl, nofun⟩
  have hone : Fine T (Compile.emit .one) := fine_emit ⟨rfl, rfl, nofun⟩
  refine T.get ?_
  dsimp only
  rw [(T.like ht).digits hk]
  split
  · exact T.run h
  split
  · exact T.run h
  · exact T.entering h ht (e := .constant (.number (digits p.token.text))) trivial
      fun k q Q hq hk => T.writing hq (s := .number (digits p.token.text)) ⟨_, rfl⟩ ⟨k, rfl, hk⟩

/-- The context allows `read()` only if `T` does. -/
class Permits (T : Parts) (ctx : Context) : Prop where
  permits : ctx.answer = false → T.reads = true

instance permits_inner {ctx : Context} [h : Permits T ctx] (whole : Bool) :
    Permits T (ctx.inner whole) := ⟨h.permits⟩

section Sub

variable {sub SUB : Sub} {ctx : Context} [hctx : Permits T ctx]
  [hsub : ∀ whole ends, Alongside T (sub (ctx.inner whole) ends) (SUB (ctx.inner whole) ends)]
  [hgrows : ∀ ctx ends, Fine growing.parts (sub ctx ends)] {t t' : Token}

omit hctx hgrows in
instance alongside_callArguments : Alongside T (callArguments sub ctx) (callArguments SUB ctx) := by
  unfold callArguments argumentStep
  infer_instance

omit hctx hgrows in
theorem alongside_call (ht : T.Like t t') (htext : t'.text = t.text) (hfit : T.Fit t.text) :
    Alongside T (call sub ctx t) (call SUB ctx t') := by
  refine fine_advance.bind fun _ => alongside_callArguments.bind fun count => ⟨fun p P h => ?_⟩
  rw [htext]
  exact T.entering h ht (e := .function t.text) hfit fun k q Q hq ⟨f, hf, hname⟩ =>
    T.writing hq (s := .call count t.text) hfit ⟨k, f, rfl, hf, hname⟩

theorem Parts.wholeArray (T : Parts) (h : T.Rel p P) (ht : T.Like t t') {k : Nat} {name : String}
    (hk : p.program.arrays.get? k = some name) :
    T.Out (wholeArray ctx t k) p (wholeArray ctx t' k) P := by
  have hrefuse : Alongside T (Compile.refuse .arrayReference t.span (some t.text) : Compile Unit)
      (Compile.refuse .arrayReference t'.span (some t'.text)) :=
    T.refuseOf ht .arrayReference fun t => some t.text
  unfold Compile.wholeArray
  split
  · refine T.bind (T.advance h) fun _ q Q hq hrel => ?_
    refine T.bind (T.run hrel) fun comma r R hr hrel => T.bind (T.run hrel) fun paren r' R' hr' hrel => ?_
    cases hr
    cases hr'
    split
    · exact T.emit hrel (s := .array name) (i := (.array, [k])) trivial
        ⟨k, rfl, (Fine.grows hq).arrays k name hk⟩
    · exact T.run hrel
  · exact T.run h

omit hctx in
theorem Parts.named (T : Parts)
    [hsub : ∀ whole ends, Alongside T (sub (ctx.inner whole) ends) (SUB (ctx.inner whole) ends)]
    (h : T.Rel p P)
    (hk : p.token.kind = .name) (calls : Bool) :
    T.Out (named sub ctx calls) p (named SUB ctx calls) P := by
  obtain ⟨ht, -, -⟩ := T.view h
  have htext := (T.like ht).text (.inr hk)
  have hcall : Alongside T (call sub ctx p.token) (call SUB ctx P.token) :=
    alongside_call ht htext (T.fit h hk)
  refine T.get (T.bind (T.advance h) fun _ q Q _ hq => T.kind hq ?_)
  unfold behindName
  rw [htext]
  split
  · refine T.bind (T.advance hq) fun _ r R _ hr => ?_
    refine T.entering hr ht (e := .array p.token.text) (T.fit h hk) fun k r₁ R₁ h₁ hk => ?_
    refine T.bind (T.run h₁) fun close r₂ R₂ hr₂ h₂ => ?_
    cases hr₂
    split
    · exact T.andThen (T.wholeArray h₂ ht hk)
    · refine T.bind (T.run h₂) fun _ r₃ R₃ hr₃ h₃ => T.bind (T.run h₃) fun _ r₄ R₄ hr₄ h₄ => ?_
      refine T.writing h₄ (s := .elem p.token.text) trivial ⟨k, rfl, ?_⟩
      exact (Fine.grows hr₄).arrays k _ ((Fine.grows hr₃).arrays k _ hk)
  · exact T.run hq
  · exact T.entering hq ht (e := .var p.token.text) (T.fit h hk) fun k r R hr hk =>
      T.writing hr (s := .var p.token.text) trivial ⟨k, rfl, hk⟩

theorem Parts.refuseArity (T : Parts) (ht : T.Like t t') :
    Alongside T (refuseArity t : Compile α) (refuseArity t') :=
  T.refuseOf ht .builtinArity fun t => some t.text

omit hctx hgrows in
instance alongside_builtinArguments (whole : Bool) :
    Alongside T (builtinArguments sub (ctx.inner whole)) (builtinArguments SUB (ctx.inner whole)) := by
  unfold builtinArguments builtinStep
  infer_instance

instance alongside_unary (f : Unary) : Alongside T (unary sub ctx f) (unary SUB ctx f) where
  out p P h := by
    have hemit : Fine T (emit f.opcode) := fine_emit (by cases f <;> exact ⟨rfl, rfl, nofun⟩)
    have hrefuse := T.refuseArity (α := Unit) (T.view h).1
    exact T.get (T.run h)

theorem fine_query {f : Query} (hf : f = .read → T.reads = true) : Fine T (query f) where
  out p P h := by
    have hemit : Fine T (emit (.query f)) :=
      ⟨fun _ _ h => T.emit (s := .plain (.query f)) (i := (.query f, [])) h
        ⟨rfl, rfl, fun hread => hf (Opcode.query.inj hread)⟩ rfl⟩
    have hrefuse := T.refuseArity (α := Unit) (T.view h).1
    exact T.get (T.run h)

instance fine_setting (s : Setting) : Fine T (emit (.setting s)) := fine_emit ⟨rfl, rfl, nofun⟩

instance alongside_scale : Alongside T (scale sub ctx) (scale SUB ctx) where
  out p P h := by
    have hemit : Fine T (emit .scaleOf) := fine_emit ⟨rfl, rfl, nofun⟩
    have hrefuse := T.refuseArity (α := Bool) (T.view h).1
    exact T.get (T.bind (T.advance h) fun _ q Q _ hq => T.run hq)

omit hctx hgrows in
theorem alongside_argumentAndComma (ht : T.Like t t') :
    Alongside T (argumentAndComma sub ctx t) (argumentAndComma SUB ctx t') := by
  have hrefuse := T.refuseArity (α := Unit) ht
  unfold argumentAndComma
  infer_instance

instance fine_remainderArray : Fine T remainderArray where
  out p P h := by
    obtain ⟨ht, -, -⟩ := T.view h
    refine T.get ?_
    dsimp only
    rw [T.get_kind h]
    split
    · next hk =>
      rw [(T.like ht).text (.inr hk)]
      have hrefuse : Alongside T
          (refuse .arrayReference p.token.span (some p.token.text) : Compile Nat)
          (refuse .arrayReference P.token.span (some p.token.text)) :=
        T.refuseOf ht .arrayReference fun _ => some p.token.text
      have hintern : Alongside T (intern (·.internArray p.token.text p.token.span))
          (intern (·.internArray p.token.text P.token.span)) :=
        ⟨fun _ _ h' => T.enter (e := .array p.token.text) h' ht (T.fit h hk)⟩
      exact T.bind (T.advance h) fun _ q Q _ hq => T.run hq
    · exact T.refuse h ht .arrayReference fun _ => none

/-- The array of a remainder has an index. -/
theorem exists_of_remainderArray {k : Nat} (h : remainderArray p = .ok k q) :
    ∃ name, q.program.arrays.get? k = some name := by
  have hrefuse {cause : Cause} {span : Span} {name : Option String} {r : Pass} :
      (refuse cause span name : Compile Nat) r ≠ .ok k q := nofun
  change (if p.token.kind = .name then _ else _ : Compile Nat) p = _ at h
  split at h
  · obtain ⟨_, q₁, -, h⟩ := bind_eq_ok h
    obtain ⟨_, q₂, -, h⟩ := bind_eq_ok h
    split at h
    · obtain ⟨_, q₃, -, h⟩ := bind_eq_ok h
      obtain ⟨_, q₄, -, h⟩ := bind_eq_ok h
      split at h
      · obtain ⟨_, q₅, -, h⟩ := bind_eq_ok h
        obtain ⟨R, hR, rfl⟩ := exists_of_intern h
        exact ⟨_, (TableEntry.extends_enter (e := .array p.token.text) hR).2⟩
      · exact absurd h hrefuse
    · exact absurd h hrefuse
  · exact absurd h hrefuse

instance alongside_ternary (f : Ternary) : Alongside T (ternary sub ctx f) (ternary SUB ctx f) where
  out p P h := by
    obtain ⟨ht, -, -⟩ := T.view h
    have hrefuse := T.refuseArity (α := Unit) ht
    have hargument : Alongside T (argumentAndComma sub ctx p.token)
        (argumentAndComma SUB ctx P.token) := alongside_argumentAndComma ht
    have hplain (op : Opcode) (hop : op.isReturn = false ∧ op.operandCount = 0 ∧ op ≠ .query .read)
        {p P : Pass} (h : T.Rel p P) : T.Out (emit op) p (emit op) P :=
      (fine_emit hop).out p P h
    have hgrow (op : Opcode) (hop : op.isReturn = false ∧ op.operandCount = 0 ∧ op ≠ .query .read)
        {a : Unit} {p q : Pass} (hrun : emit op p = .ok a q) : p.program.Grows q.program :=
      have := fine_emit (T := growing.parts) hop
      Fine.grows hrun
    have hmodexp : Fine T (emit .modexp) := fine_emit ⟨rfl, rfl, nofun⟩
    have hswap : Fine T (emit .swap) := fine_emit ⟨rfl, rfl, nofun⟩
    have hstore : Fine T (emit (.store none)) := fine_emit ⟨rfl, rfl, nofun⟩
    refine T.get (T.bind (T.advance h) fun _ p₁ P₁ _ h₁ => ?_)
    refine T.bind (T.run h₁) fun _ p₂ P₂ _ h₂ => T.bind (T.run h₂) fun _ p₃ P₃ _ h₃ => ?_
    refine T.bind (T.run h₃) fun _ p₄ P₄ _ h₄ => ?_
    cases f with
    | divmod =>
      refine T.bind (T.run h₄) fun k p₅ P₅ hk h₅ => T.bind (T.run h₅) fun close p₆ P₆ hclose h₆ => ?_
      cases hclose
      obtain ⟨name, hname⟩ := exists_of_remainderArray hk
      split
      · refine T.bind (hplain .divmod ⟨rfl, rfl, nofun⟩ h₆) fun _ p₇ P₇ h h₇ => ?_
        have hname := (hgrow .divmod ⟨rfl, rfl, nofun⟩ h).arrays k _ hname
        refine T.bind (hplain .zero ⟨rfl, rfl, nofun⟩ h₇) fun _ p₈ P₈ h h₈ => ?_
        have hname := (hgrow .zero ⟨rfl, rfl, nofun⟩ h).arrays k _ hname
        exact T.writing h₈ (s := .elem name) trivial ⟨k, rfl, hname⟩
      · exact T.run h₆
    | modexp => exact T.run h₄

instance alongside_operand : Alongside T (operand sub ctx) (operand SUB ctx) where
  out p P h := by
    refine T.kind h ?_
    split
    · next hk => exact T.andThen (T.number h hk)
    · next hk => exact T.andThen (T.string h hk)
    · next hk => exact T.named h hk true
    · exact T.run h
    · exact T.run h
    · exact T.run h
    · next f hk =>
      split
      · exact T.run h
      · next hread =>
        have hquery : Fine T (query f) := fine_query fun hf =>
          hctx.permits (by simpa [hf] using hread)
        exact T.run h
    · exact T.run h
    · exact T.run h

/-! ## Expressions -/

instance fine_emitOperators (ops : List Operator) : Fine T (emitOperators ops) := by
  induction ops with
  | nil => exact fine_pure ()
  | cons op ops ih =>
    unfold emitOperators
    split
    · next code hcode => exact (fine_emit (Operator.plain_of_opcode? hcode)).bind fun _ => ih
    · infer_instance

theorem Parts.modify (T : Parts) {f F : Pass → Pass} (h : T.Out (set (f p)) p (set (F P)) P) :
    T.Out (modify f) p (modify F) P :=
  T.get (f := fun p => set (f p)) (F := fun p => set (F p)) h

/-- The operators of an expression, if others lie under them in the second run. -/
theorem Parts.above_eq (T : Parts) (h : T.Rel p P) (base : Nat) :
    above (base + T.under.length) P.operators = above base p.operators := by
  have hlength : p.operators.length + T.under.length - (base + T.under.length) =
      p.operators.length - base := by omega
  rw [(T.view h).2.2, above, List.length_append, hlength, above,
    List.take_append_of_le_length (Nat.sub_le ..)]

theorem Parts.dropOperators (T : Parts) (h : T.Rel p P) {n : Nat} (hn : n ≤ p.operators.length) :
    T.Out (dropOperators n) p (dropOperators n) P := by
  refine T.modify (T.operators h ?_)
  rw [(T.view h).2.2, List.drop_append_of_le_length hn]

instance fine_pushOperator (op : Operator) : Fine T (pushOperator op) where
  out p P h := by
    refine T.modify (T.operators h ?_)
    rw [(T.view h).2.2, List.cons_append]

/-- Writing instructions lets no operator wait. -/
theorem operators_of_emitOperators {ops : List Operator} {a : Unit}
    (h : emitOperators ops p = .ok a q) : q.operators = p.operators := by
  have hemit (op : Opcode) (p : Pass) : Accepts (emit op) p fun _ q => q.operators = p.operators := by
    simp only [Accepts, emit, emitWith, modifyFunction, here, ensures_bind, ensures_get,
      ensures_pure, ensures_ite, ensures_set, ensures_throw]
    split <;> trivial
  induction ops generalizing p with
  | nil =>
    cases h
    rfl
  | cons op ops ih =>
    unfold emitOperators at h
    cases hcode : op.opcode? with
    | none =>
      rw [hcode] at h
      exact ih h
    | some code =>
      rw [hcode] at h
      obtain ⟨_, r, hr, h⟩ := bind_eq_ok h
      exact (ih h).trans ((hemit code p).ok hr)

/-- Some of the latest operators are applied. -/
theorem Parts.emitting (T : Parts) (h : T.Rel p P) (ops : List Operator) {f F : Unit → Compile α}
    (hf : ∀ q Q, T.Rel q Q → q.operators = p.operators → T.Out (f ()) q (F ()) Q) :
    T.Out (emitOperators ops >>= f) p (emitOperators ops >>= F) P :=
  T.bind (T.run h) fun _ q Q hq hrel => hf q Q hrel (operators_of_emitOperators hq)

instance alongside_awaitOperand (base : Nat) (op : Operator) (t : Tally) :
    Alongside T (awaitOperand base op t) (awaitOperand (base + T.under.length) op t) where
  out p P h := by
    refine T.get ?_
    rw [T.above_eq h]
    refine T.emitting h _ fun q Q hq hops => T.andThen (T.dropOperators hq ?_)
    rw [hops]
    exact Nat.le_trans (List.takeWhile_sublist _).length_le (List.length_take_le' ..)

omit hctx in
theorem alongside_stepTarget (ht : T.Like t t') :
    Alongside T (stepTarget sub ctx t.span) (stepTarget SUB ctx t'.span) where
  out p P h := by
    have hrefuse : Alongside T (refuse .invalidAssignment t.span : Compile Unit)
        (refuse .invalidAssignment t'.span) :=
      T.refuseOf ht .invalidAssignment fun _ => none
    have hscalar (whole : Bool) (ends : Ends) :
        Alongside T (sub (Context.inner { ctx with wholeArray := false } whole) ends)
          (SUB (Context.inner { ctx with wholeArray := false } whole) ends) := hsub whole ends
    refine T.kind h ?_
    split
    · next hk => exact T.andThen (T.named h hk false)
    all_goals exact T.run h

instance alongside_stepBy (up : Bool) (t : Tally) :
    Alongside T (stepBy sub ctx up t) (stepBy SUB ctx up t) where
  out p P h := by
    obtain ⟨ht, hprevious, -⟩ := T.view h
    have hone : Fine T (emit .one) := fine_emit ⟨rfl, rfl, nofun⟩
    have hstep : Fine T (emit (if up then .inc else .dec)) :=
      fine_emit (by cases up <;> exact ⟨rfl, rfl, nofun⟩)
    have hassign : Fine T (emit (.assign (some (if up then .plus else .minus)))) :=
      fine_emit ⟨rfl, rfl, nofun⟩
    have hrefuse : Alongside T (refuse .invalidAssignment p.token.span : Compile Tally)
        (refuse .invalidAssignment P.token.span) :=
      T.refuseOf ht .invalidAssignment fun _ => none
    have htarget : Alongside T (stepTarget sub ctx p.token.span) (stepTarget SUB ctx P.token.span) :=
      alongside_stepTarget ht
    refine T.get ?_
    rw [hprevious]
    exact T.run h

instance alongside_closeParen (base : Nat) (t : Tally) :
    Alongside T (closeParen base t) (closeParen (base + T.under.length) t) where
  out p P h := by
    have hle : (above base p.operators).length ≤ p.operators.length := List.length_take_le' ..
    refine T.get ?_
    rw [(T.view h).2.1, T.above_eq h]
    dsimp only
    split
    · split
      · exact T.andThen (T.dropOperators h hle)
      · exact T.run h
    split
    · split
      · exact T.run h
      · refine T.emitting h _ fun q Q hq hops => ?_
        have hready := List.takeWhile_prefix (l := above base p.operators) (· != .paren)
        split
        · exact T.run hq
        · next hne =>
          refine T.andThen (T.dropOperators hq ?_)
          have := hready.length_le
          rw [hops]
          omega
    · exact T.run h

instance alongside_applyOperator (base : Nat) (op : Operator) (t : Tally) :
    Alongside T (applyOperator base op t) (applyOperator (base + T.under.length) op t) where
  out p P h := by
    refine T.get ?_
    simp only [bindsTighter, T.above_eq h]
    exact T.run h

instance alongside_turn (base : Nat) (t : Tally) :
    Alongside T (turn sub base ctx t) (turn SUB (base + T.under.length) ctx t) := by
  have htrunc : Fine T (emit .trunc) := fine_emit ⟨rfl, rfl, nofun⟩
  refine fine_kind.bind fun k => ?_
  split
  case h_7 => split <;> infer_instance
  all_goals infer_instance

/-- The context changes only in what it says about whole arrays. -/
theorem alongside_turns (base : Nat) :
    Alongside T (turns sub base ctx) (turns SUB (base + T.under.length) ctx) := by
  refine alongside_perToken_of (I := fun state => state.1.answer = ctx.answer)
    (fun state hstate => ?_) (fun state p state' q hstate h => ?_) _ rfl
  · obtain ⟨ctx', t⟩ := state
    have hctx' : Permits T ctx' := ⟨fun h => hctx.permits (hstate.symm.trans h)⟩
    have hinner (whole : Bool) : ctx'.inner whole = ctx.inner whole := by
      rw [Context.inner, hstate, Context.inner]
    have hsub' (whole : Bool) (ends : Ends) :
        Alongside T (sub (ctx'.inner whole) ends) (SUB (ctx'.inner whole) ends) := by
      rw [hinner]
      exact hsub whole ends
    refine (alongside_turn base t).bind fun next => ?_
    cases next <;> infer_instance
  · obtain ⟨next, r, -, h⟩ := bind_eq_ok h
    cases next <;> cases h
    exact hstate

end Sub

instance alongside_drain (base : Nat) (t : Tally) :
    Alongside T (drain base t) (drain (base + T.under.length) t) where
  out p P h := by
    refine T.get ?_
    rw [T.above_eq h]
    dsimp only
    split
    · exact T.run h
    · refine T.emitting h _ fun q Q hq hops => T.andThen (T.dropOperators hq ?_)
      rw [hops]
      exact List.length_take_le' ..

instance fine_reportRelations (ctx : Context) (t : Tally) : Fine T (reportRelations ctx t) := by
  unfold reportRelations
  infer_instance

instance fine_suppressValue (t : Tally) : Fine T (suppressValue t) :=
  ⟨fun _ _ h => T.suppressValue h t⟩

instance fine_settleValue (ctx : Context) (parenFirst : Bool) (t : Tally) :
    Fine T (settleValue ctx parenFirst t) := by
  have hprint : Fine T (emit .print) := fine_emit ⟨rfl, rfl, nofun⟩
  have hpop : Fine T (emit .pop) := fine_emit ⟨rfl, rfl, nofun⟩
  unfold settleValue
  infer_instance

instance alongside_endExpression (base : Nat) (ctx : Context) (ends : Ends) (parenFirst : Bool)
    (t : Tally) : Alongside T (endExpression base ctx ends parenFirst t)
      (endExpression (base + T.under.length) ctx ends parenFirst t) := by
  unfold endExpression
  infer_instance

theorem alongside_endOrEmpty (base : Nat) (ctx : Context) (ends : Ends) (parenFirst : Bool)
    (t : Option Tally) : Alongside T
      (match t with
        | some t => do
          endExpression base ctx ends parenFirst t
          return Outcome.value
        | none => return Outcome.empty)
      (match t with
        | some t => do
          endExpression (base + T.under.length) ctx ends parenFirst t
          return Outcome.value
        | none => return Outcome.empty) := by
  cases t <;> infer_instance

theorem alongside_expressionWith {sub SUB : Sub} {ctx : Context} [hctx : Permits T ctx]
    (hsub : ∀ whole ends, Alongside T (sub (ctx.inner whole) ends) (SUB (ctx.inner whole) ends))
    (hgrows : ∀ ctx ends, Fine growing.parts (sub ctx ends)) (ends : Ends) :
    Alongside T (expressionWith sub ctx ends) (expressionWith SUB ctx ends) where
  out p P h := by
    refine T.get ?_
    rw [(T.view h).2.2, List.length_append]
    have hend (base : Nat) := alongside_endOrEmpty (T := T) base ctx ends
    have hturns (base : Nat) :
        Alongside T (turns sub base ctx) (turns SUB (base + T.under.length) ctx) :=
      alongside_turns base
    exact T.run h

instance fine_requireValue (outcome : Outcome) : Fine T (requireValue outcome) := by
  cases outcome
  · exact fine_pure ()
  · exact fine_refuseHere _

instance permits_growing (ctx : Context) : Permits growing.parts ctx := ⟨fun _ => rfl⟩

/-- The induction is on the number of levels of nested expressions. -/
instance grows_expressionAt (bound : List γ) (ctx : Context) (ends : Ends) :
    Fine growing.parts (expressionAt bound ctx ends) := by
  induction bound generalizing ctx ends with
  | nil =>
    have hsub : Fine growing.parts (throw (.fault .unbounded) : Compile Unit) :=
      ⟨fun _ _ => growing.parts.exceed⟩
    exact alongside_expressionWith (fun _ _ => hsub) (fun _ _ => hsub) ends
  | cons _ bound ih =>
    exact alongside_expressionWith (fun _ _ => inferInstance) (fun _ _ => inferInstance) ends

instance fine_expressionAt (bound : List γ) (ctx : Context) [Permits T ctx] (ends : Ends) :
    Fine T (expressionAt bound ctx ends) := by
  induction bound generalizing ctx ends with
  | nil =>
    have hsub (T : Parts) : Fine T (throw (.fault .unbounded) : Compile Unit) := ⟨fun _ _ => T.exceed⟩
    exact alongside_expressionWith (fun _ _ => hsub T) (fun _ _ => hsub _) ends
  | cons _ bound ih =>
    exact alongside_expressionWith (fun _ _ => inferInstance) (fun _ _ => inferInstance) ends

/-- A smaller bound leads to the same outcome, or it is exceeded. -/
def within : Parts where
  Rel p P := P = p
  Out m p M P := m p = M P ∨ Exceeds m p
  Like t T := T = t
  Fit _ := True
  reads := true
  under := []
  like := .of_eq
  view h := h ▸ ⟨rfl, rfl, (List.append_nil _).symm⟩
  fit _ _ := trivial
  pure h _ := h ▸ .inl rfl
  refuse h ht _ _ := h ▸ ht ▸ .inl rfl
  bind hm hf := within_bind_at hm fun a q hq => hf a q q hq rfl
  get h := h
  exceed h := h ▸ .inl rfl
  bounded h _ _ hgood := by
    obtain rfl := h
    exact hgood _
  advance h := h ▸ .inl rfl
  atDelimiter h := h ▸ .inl rfl
  report h ht _ := h ▸ ht ▸ .inl rfl
  operators h _ _ hops := by
    rw [List.append_nil] at hops
    exact h ▸ hops ▸ .inl rfl
  emit h _ _ := h ▸ .inl rfl
  enter h ht _ _ := h ▸ ht ▸ .inl rfl
  suppressValue h _ := h ▸ .inl rfl

/-- **Fewer levels of nested expressions.** -/
theorem bounded_expressionAt (ctx : Context) (ends : Ends) :
    Bounded (γ := γ) fun bound => expressionAt bound ctx ends := by
  have hreads (ctx : Context) : Permits within ctx := ⟨fun _ => rfl⟩
  have hsub (sub : Compile Unit) : Alongside within (throw (.fault .unbounded)) sub :=
    ⟨fun p _ _ => .inr ⟨p, rfl⟩⟩
  have habreast (u v : List γ) (huv : u.length ≤ v.length) (ctx : Context) (ends : Ends) :
      Alongside within (expressionAt u ctx ends) (expressionAt v ctx ends) := by
    induction u generalizing v ctx ends with
    | nil =>
      have hgrows : Fine growing.parts (throw (.fault .unbounded) : Compile Unit) :=
        ⟨fun _ _ => growing.parts.exceed⟩
      cases v <;> exact alongside_expressionWith (fun _ _ => hsub _) (fun _ _ => hgrows) ends
    | cons c u ih =>
      cases v with
      | nil => cases huv
      | cons d v =>
        have hih := ih v (Nat.le_of_succ_le_succ huv)
        exact alongside_expressionWith (fun _ _ => inferInstance) (fun _ _ => inferInstance) ends
  exact fun u v huv p => (habreast u v huv ctx ends).out p p rfl

instance fine_expressionOrEmpty (ctx : Context) [Permits T ctx] (ends : Ends) :
    Fine T (expressionOrEmpty ctx ends) :=
  ⟨fun _ _ h => T.get (f := fun p => expressionAt p.upcoming ctx ends)
    (F := fun p => expressionAt p.upcoming ctx ends)
    (T.bounded h (bounded_expressionAt ctx ends) (bounded_expressionAt ctx ends) fun _ => T.run h)⟩

/-- **What the parts of expressions have in common, expressions have.** -/
instance fine_expression (ctx : Context) [Permits T ctx] (ends : Ends) :
    Fine T (expression ctx ends) := by
  unfold expression
  infer_instance

end Compile

end DeskCalc
