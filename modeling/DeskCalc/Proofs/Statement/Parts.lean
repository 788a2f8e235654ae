import DeskCalc.Proofs.Chunks.Unlined
import DeskCalc.Proofs.Expression.Parts
import DeskCalc.Statement

/-!
# What statements are made of

Besides expressions, statements are made of labels, jumps, and changes of the open blocks. What is
known of two runs of each of these (`Moves`) is known of headers, jumps and the parts of a definition.
What is known of one run (`Stepwise`) is known of the ends of bodies as well, and of statements if it
is known of `auto`, of `return` and of the ends of functions.
-/

namespace DeskCalc

/-- The block has a brace or is the body of something, so that it can be closed. -/
def Block.isBody (b : Block) : Bool :=
  b.brace || b.funcBody || b.loopBody || b.ifBody || b.elseBody

/-- What headers and the ends of bodies do to the open blocks: the body of a function is neither
opened nor entered, and every block that is opened can be closed. -/
inductive BlockStack.Shift : (BlockStack → BlockStack) → Prop
  | push (b : Block → Block) (hbody : ∀ top, (b top).funcBody = false)
    (hinside : ∀ top, (b top).inFunc = true → top.inFunc = true)
    (hformed : ∀ top, (b top).isBody = true) : Shift fun s => s.push (b s.top)
  | pop : Shift BlockStack.pop
  | top (f : Block → Block) (hbody : ∀ b, (f b).funcBody = b.funcBody)
    (hinside : ∀ b, (f b).inFunc = b.inFunc) (hbrace : ∀ b, b.brace = true → (f b).brace = true)
    (hformed : ∀ b, b.isBody = true → (f b).isBody = true) : Shift fun s => s.modifyTop f

namespace Compile

variable {α : Type} {T : Parts} {p P : Pass}

/-- What is known of two runs of labels and jumps as well. -/
class Moves (T : Parts) where
  /-- The functions that receive code in both runs. -/
  Twin (f F : Function) : Prop
  twin {f F : Function} (h : Twin f F) : F.unlined = f.unlined
  anyReads : T.reads = true
  frame {p P : Pass} (h : T.Rel p P) :
    P.blocks = p.blocks ∧ P.exits = p.exits ∧ P.continues = p.continues
  fault {α : Type} {p P : Pass} (h : T.Rel p P) (e : Fault) :
    T.Out (throw (.fault e) : Compile α) p (throw (.fault e)) P
  function {α : Type} {p P : Pass} {m M : Function → Compile α} (h : T.Rel p P)
    (hm : ∀ f F, p.program.function? p.target = some f → Twin f F → T.Out (m f) p (M F) P) :
    T.Out (function >>= m) p (function >>= M) P
  jump {p P : Pass} (h : T.Rel p P) {op : Opcode} (hop : op = .jump ∨ op = .jumpZero) (label : Nat) :
    T.Out (emitWith op [label]) p (emitWith op [label]) P
  relabel {p P : Pass} {f F : Function} (h : T.Rel p P) (hf : p.program.function? p.target = some f)
    (hF : Twin f F) (labels : LabelTable) :
    T.Out (putFunction { f with labels := labels }) p (putFunction { F with labels := labels }) P
  exits {p P : Pass} (h : T.Rel p P) (exits : List Exit) :
    T.Out (set { p with exits := exits }) p (set { P with exits := exits }) P
  continues {p P : Pass} (h : T.Rel p P) (continues : List Nat) :
    T.Out (set { p with continues := continues }) p (set { P with continues := continues }) P

/-- What is known of a change of the open blocks. -/
class Shifts (T : Parts) : Prop where
  shift {change : BlockStack → BlockStack} (h : BlockStack.Shift change) :
    Fine T (modifyBlocks change)

/-! ## One run -/

/-- What is known of a run of an expression, of a label and of a jump. -/
structure Stepwise extends Keeping where
  anyReads : reads = true
  jump {p : Pass} (h : Pre p) {op : Opcode} (hop : op = .jump ∨ op = .jumpZero) (label : Nat) :
    Ensures (emitWith op [label]) p (fun _ q => Pre q ∧ Done p q) fun e => Left e p
  relabel {p : Pass} {f : Function} (h : Pre p) (hf : p.program.function? p.target = some f)
    (labels : LabelTable) :
    Ensures (putFunction { f with labels := labels }) p (fun _ q => Pre q ∧ Done p q)
      fun e => Left e p

instance fine_get {K : Keeping} : Fine K.parts (get : Compile Pass) := K.fine fun _ h => K.stay h

/-- A change of something that does not count. -/
theorem fine_modify {K : Keeping} {change : Pass → Pass} (hahead : ∀ p, Pass.Precedes p (change p))
    (hprogram : ∀ p, (change p).program = p.program) (htarget : ∀ p, (change p).target = p.target)
    (hblocks : ∀ p, (change p).blocks = p.blocks) : Fine K.parts (modify change) :=
  K.fine fun p h => K.done h (hahead p) (hprogram p) (htarget p) (hblocks p)

/-- The function that receives code. -/
theorem Keeping.function (K : Keeping) {m : Function → Compile α} (h : K.Pre p)
    (hm : ∀ f, p.program.function? p.target = some f → K.Keeps (m f) p) :
    K.Keeps (function >>= m) p := by
  simp only [Keeps, Compile.function, ensures_bind, ensures_get]
  split
  · next f hf => exact hm f hf
  · exact K.left h trivial

instance fine_function {K : Keeping} : Fine K.parts function := by
  rw [← bind_pure function]
  exact K.fine fun _ h => K.function h fun _ _ => K.stay h

instance moves_stepwise (K : Stepwise) : Moves K.parts where
  Twin f F := F = f
  twin h := h ▸ rfl
  anyReads := K.anyReads
  frame h := h.1 ▸ ⟨rfl, rfl, rfl⟩
  fault h _ := K.left h.2 trivial
  function h hm := K.function h.2 fun f hf => hm f f hf rfl
  jump h _ hop label := K.jump h.2 hop label
  relabel h hf _ labels := K.relabel h.2 hf labels
  exits h _ := K.done h.2 (.refl _) rfl rfl rfl
  continues h _ := K.done h.2 (.refl _) rfl rfl rfl

/-! ## Labels -/

section Moves

variable [hT : Moves T] {f F : Function}

instance permits_moves (ctx : Context) : Permits T ctx := ⟨fun _ => hT.anyReads⟩

instance fine_fault (e : Fault) : Fine T (throw (.fault e) : Compile α) := ⟨fun _ _ h => hT.fault h e⟩

instance fine_topBlock : Fine T topBlock where
  out p P h := by
    refine T.get ?_
    rw [(hT.frame h).1]
    exact T.pure h _

instance fine_emitJump (label : Nat) : Fine T (emitJump label) :=
  ⟨fun _ _ h => hT.jump h (.inl rfl) label⟩

instance fine_emitJumpZero (label : Nat) : Fine T (emitJumpZero label) :=
  ⟨fun _ _ h => hT.jump h (.inr rfl) label⟩

/-- What does not depend on lines is the same of both functions. -/
theorem Moves.map_eq {β : Type} (h : hT.Twin f F) (g : Function → β) (hg : ∀ f, g f.unlined = g f) :
    g F = g f := by
  rw [← hg, hT.twin h, hg]

theorem Moves.labels (h : hT.Twin f F) : F.labels = f.labels :=
  hT.map_eq h Function.labels fun _ => rfl

theorem Moves.isVoid (h : hT.Twin f F) : F.isVoid = f.isVoid :=
  hT.map_eq h Function.isVoid fun _ => rfl

theorem Moves.size (h : hT.Twin f F) : F.code.size = f.code.size :=
  hT.map_eq h (·.code.size) fun f => f.code.size_unlined

instance fine_nextLabel : Fine T nextLabel where
  out _ _ h := hT.function h fun f F _ hF => by
    rw [hT.labels hF]
    exact T.pure h _

instance fine_makeLabel (l : Label) : Fine T (makeLabel l) where
  out _ _ h := hT.function h fun f F hf hF => by
    rw [hT.labels hF]
    exact T.bind (hT.relabel h hf hF _) fun _ _ _ _ hq => T.pure hq _

instance fine_labelHere : Fine T labelHere where
  out _ _ h := hT.function h fun f F _ hF => by
    rw [hT.size hF]
    exact T.run h

instance fine_continueHere : Fine T continueHere := by
  have hpush (label : Nat) :
      Fine T (modify fun p : Pass => { p with continues := label :: p.continues }) := by
    refine ⟨fun p P h => T.modify ?_⟩
    rw [(hT.frame h).2.2]
    exact hT.continues h _
  unfold continueHere
  infer_instance

instance fine_openExit (isLoop : Bool) : Fine T (openExit isLoop) := by
  have hpush (label : Nat) :
      Fine T (modify fun p : Pass => { p with exits := ⟨label, isLoop⟩ :: p.exits }) := by
    refine ⟨fun p P h => T.modify ?_⟩
    rw [(hT.frame h).2.1]
    exact hT.exits h _
  unfold openExit
  infer_instance

instance fine_resolveExit : Fine T resolveExit where
  out p P h := by
    refine T.get ?_
    rw [(hT.frame h).2.1]
    split
    · exact T.pure h ()
    · refine T.bind (hT.exits h _) fun _ q Q _ hq => hT.function hq fun f F hf hF => ?_
      rw [hT.labels hF, hT.size hF]
      split
      · exact hT.relabel hq hf hF _
      · exact hT.fault hq _

instance fine_ensureLabel (created expected : Nat) : Fine T (ensureLabel created expected) := by
  unfold ensureLabel
  infer_instance

/-! ## Jumps and output -/

theorem Parts.here (T : Parts) {f F : Span → Compile α}
    (h : T.Out (f p.token.span) p (F P.token.span) P) : T.Out (here >>= f) p (here >>= F) P :=
  T.get (f := fun p => f p.token.span) (F := fun p => F p.token.span) h

instance fine_forClause (ctx : Context) (ends : Ends) (stop : Token.Kind) (fallback : Compile Unit)
    [hfallback : Fine T fallback] : Fine T (forClause ctx ends stop fallback) where
  out p P h := by
    have hreport : Alongside T (report .emptyForClause p.token.span)
        (report .emptyForClause P.token.span) := ⟨fun _ _ hq => T.report hq (T.view h).1 _⟩
    have houtcome (outcome : Outcome) : Alongside T (match outcome with
        | .value => pure ()
        | .empty => do
          fallback
          report .emptyForClause p.token.span) (match outcome with
        | .value => pure ()
        | .empty => do
          fallback
          report .emptyForClause P.token.span) := by
      cases outcome <;> infer_instance
    exact T.here (T.run h)

instance fine_leaveLoop (label : Option Nat) (outside : Cause) : Fine T (leaveLoop label outside) := by
  unfold leaveLoop
  cases label <;> infer_instance

instance fine_breakLoop : Fine T breakLoop where
  out p P h := by
    refine T.get ?_
    rw [(hT.frame h).2.1]
    exact T.run h

instance fine_continueLoop : Fine T continueLoop where
  out p P h := by
    refine T.get ?_
    rw [(hT.frame h).2.2]
    exact T.run h

theorem fine_printItems {op : Opcode}
    (hop : op.isReturn = false ∧ op.operandCount = 0 ∧ op ≠ .query .read) :
    Fine T (printItems op) := by
  have hemit : Fine T (emit op) := fine_emit hop
  have hnext : Fine T (printNext op) := by
    unfold printNext
    infer_instance
  have hitem (u : Unit) : Fine T (printStep op u) := by
    refine ⟨fun p P h => T.bind (T.run h) fun string q Q hq hrel => ?_⟩
    cases hq
    split
    · next hk => exact T.andThen (T.string hrel (beq_iff_eq.1 hk))
    · exact T.run hrel
  unfold printItems
  infer_instance

/-- The statement `return`, if the instructions that it ends with are known. -/
theorem alongside_returned (hret : ∀ op : Opcode, op.isReturn = true → Fine T (emit op))
    (h : T.Rel p P) (isVoid paren : Bool) (outcome : Outcome) :
    Alongside T (returned (if isVoid then .retVoid else .ret0) p.token.span paren outcome)
      (returned (if isVoid then .retVoid else .ret0) P.token.span paren outcome) := by
  have hvalue : Fine T (emit .ret) := hret _ rfl
  have hreport : Alongside T (report .returnParens p.token.span)
      (report .returnParens P.token.span) := ⟨fun _ _ hq => T.report hq (T.view h).1 _⟩
  cases outcome with
  | empty => exact hret _ (by cases isVoid <;> rfl)
  | value =>
    refine ⟨fun q Q hq => hT.function hq fun g G _ hG => ?_⟩
    rw [hT.isVoid hG, hT.map_eq hG Function.name fun _ => rfl]
    split
    · exact T.refuse hq (T.view h).1 .returnValueInVoid fun _ => some g.name
    · refine T.get ?_
      rw [(T.view hq).2.1]
      exact T.run hq

theorem fine_returnValue (hret : ∀ op : Opcode, op.isReturn = true → Fine T (emit op)) :
    Fine T returnValue := by
  refine fine_topBlock.bind fun top => ?_
  split
  · refine ⟨fun p P h => hT.function h fun f F _ hF => T.here ?_⟩
    rw [hT.isVoid hF]
    have hempty : Fine T (emit (if f.isVoid then .retVoid else .ret0)) :=
      hret _ (by cases f.isVoid <;> rfl)
    have hback := alongside_returned hret h f.isVoid
    exact T.run h
  · infer_instance

/-! ## Declarations -/

instance fine_arrayMark : Fine T arrayMark := by
  unfold arrayMark
  infer_instance

instance fine_commaMark : Fine T commaMark := by
  unfold commaMark
  infer_instance

instance fine_referenceMark : Fine T referenceMark := by
  unfold referenceMark
  infer_instance

theorem report_token {v : Violation} {span : Span} :
    Accepts (report v span) p fun _ q => q.token = p.token := by
  simp only [Accepts, report, ensures_bind, ensures_get]
  split
  · rfl
  · rfl
  · trivial

/-- The name of a function, and what depends on it. -/
theorem Parts.functionName (T : Parts) {f F : Token × Bool → Compile α} (h : T.Rel p P)
    (hf : ∀ t t' isVoid q Q, T.Like t t' → t'.text = t.text → T.Fit t.text → T.Rel q Q →
      T.Out (f (t, isVoid)) q (F (t', isVoid)) Q) :
    T.Out (functionName >>= f) p (functionName >>= F) P := by
  unfold Compile.functionName
  simp only [bind_assoc]
  refine T.get ?_
  rw [T.get_kind h]
  split
  · next hk =>
    obtain ⟨ht, -, -⟩ := T.view h
    have htext := (T.like ht).text (.inr hk)
    simp only [bind_assoc, htext]
    refine T.bind (T.advance h) fun _ q Q _ hq => T.kind hq ?_
    split
    · next hvoid =>
      simp only [bind_assoc, pure_bind]
      refine T.bind (T.report hq ht _) fun _ r R hr hrel => T.get ?_
      have hname : r.token.kind = .name := by rw [report_token.ok hr, hvoid.2]
      obtain ⟨ht', -, -⟩ := T.view hrel
      exact T.bind (T.advance hrel) fun _ s S _ hs =>
        hf _ _ true s S ht' ((T.like ht').text (.inr hname)) (T.fit hrel hname) hs
    · simp only [pure_bind]
      exact hf _ _ false q Q ht htext (T.fit h hk) hq
  · exact T.bind (T.run h) fun _ _ _ hrun => nomatch hrun

end Moves

/-- What is known of the locals of a function. -/
class Declares (T : Parts) : Prop where
  declare {t t' : Token} (ht : T.Like t t') (htext : t'.text = t.text) (hfit : T.Fit t.text)
    (localKind : LocalKind) : Alongside T (declareLocal t localKind) (declareLocal t' localKind)
  count : Fine T (modifyFunction fun f => { f with nparams := f.nparams + 1 })

section Declares

variable [hT : Moves T] [hD : Declares T]

/-- The declaration of the current token as a local. -/
theorem Parts.declaring (T : Parts) [hD : Declares T] (h : T.Rel p P) (hk : p.token.kind = .name)
    (localKind : LocalKind) :
    Alongside T (declareLocal p.token localKind) (declareLocal P.token localKind) :=
  have ht := (T.view h).1
  hD.declare ht ((T.like ht).text (.inr hk)) (T.fit h hk) localKind

instance fine_parameters : Fine T parameters := by
  have hcount := hD.count
  have hparameter : Fine T parameter := by
    refine fine_referenceMark.bind fun reference => ⟨fun p P h => T.get ?_⟩
    dsimp only
    rw [T.get_kind h]
    split
    · next hk =>
      have hlocal := T.declaring h hk
      have hkind (reference isArray : Bool) : Alongside T (parameterKind p.token reference isArray)
          (parameterKind P.token reference isArray) := by
        unfold parameterKind
        split
        · infer_instance
        · exact T.refuseOf (T.view h).1 .referenceNotArray fun t => some t.text
        · infer_instance
        · infer_instance
      exact T.run h
    · exact T.run h
  refine alongside_perToken (h := fun comma => (fine_isAt _).bind fun close => ?_) _
  split
  · infer_instance
  · refine ⟨fun p P h => hT.function h fun f F _ hF => ?_⟩
    rw [hT.map_eq hF Function.nparams fun _ => rfl]
    exact T.run h

/-- The locals behind `auto`. -/
instance fine_autoStep (state : Nat × Bool) : Fine T (autoStep state) := by
  refine ⟨fun p P h => T.get ?_⟩
  dsimp only
  rw [T.get_kind h]
  split
  · next hk =>
    have hlocal := T.declaring h hk
    exact T.run h
  · exact T.run h

end Declares

/-! ## Bodies -/

section Shifts

variable [hT : Moves T] [hshift : Shifts T]

omit hT in
theorem fine_openBody {b : Block} (hinside : b.inFunc = false) (hbody : b.funcBody = false)
    (hformed : b.isBody = true) : Fine T (openBody b) :=
  hshift.shift (.push b.bodyIn (fun _ => hbody) (fun top h => by
    simpa only [Block.bodyIn, hinside, Bool.false_or] using h) fun _ => hformed)

omit hT in
instance fine_openBrace : Fine T openBrace :=
  hshift.shift (.push _ (fun _ => rfl) (fun _ => id) fun _ => rfl)

omit hT in
instance fine_closeBlock : Fine T closeBlock := hshift.shift .pop

instance fine_endIf : Fine T endIf := by
  have hmark : Fine T (modifyBlocks fun s => s.modifyTop ({ · with ifEnded := false })) :=
    hshift.shift (.top _ (fun _ => rfl) (fun _ => rfl) (fun _ => id) fun _ => id)
  unfold endIf
  infer_instance

instance fine_elseBranch : Fine T elseBranch := by
  have hopen : Fine T (openBody { elseBody := true }) := fine_openBody rfl rfl rfl
  unfold elseBranch
  infer_instance

instance fine_ifHeader : Fine T ifHeader := by
  have hopen : Fine T (openBody { ifBody := true }) := fine_openBody rfl rfl rfl
  refine fine_advance.bind fun _ => (fine_expect _).bind fun _ => ?_
  refine (fine_expression ..).bind fun _ => (fine_expect _).bind fun _ => ?_
  infer_instance

instance fine_whileHeader : Fine T whileHeader := by
  have hopen : Fine T (openBody { inLoop := true, loopBody := true }) := fine_openBody rfl rfl rfl
  refine fine_advance.bind fun _ => (fine_expect _).bind fun _ => ?_
  refine fine_continueHere.bind fun _ => (fine_openExit true).bind fun exit => ?_
  infer_instance

instance fine_forHeader : Fine T forHeader := by
  have hone : Fine T (emit .one) := fine_emit ⟨rfl, rfl, nofun⟩
  have hopen : Fine T (openBody { inLoop := true, loopBody := true }) := fine_openBody rfl rfl rfl
  refine fine_advance.bind fun _ => (fine_expect _).bind fun _ => ?_
  refine (fine_forClause ..).bind fun _ => (fine_expect _).bind fun _ => ?_
  refine fine_nextLabel.bind fun test => fine_labelHere.bind fun _ => ?_
  refine (fine_ensureLabel ..).bind fun _ => (fine_forClause ..).bind fun _ => ?_
  refine (fine_expect _).bind fun _ => (fine_emitJumpZero _).bind fun _ => ?_
  refine (fine_emitJump _).bind fun _ => fine_continueHere.bind fun _ => ?_
  refine (fine_ensureLabel ..).bind fun _ => (fine_forClause ..).bind fun _ => ?_
  refine (fine_isAt _).bind fun close => ?_
  split
  · refine (fine_emitJump _).bind fun _ => fine_labelHere.bind fun _ => ?_
    refine (fine_ensureLabel ..).bind fun _ => (fine_openExit true).bind fun _ => ?_
    infer_instance
  · infer_instance

omit hshift in
instance fine_closingBrace : Fine T closingBrace := by
  have hahead : Fine T (do
      let blocks := (← get).blocks
      let functionEnds :=
        blocks.depth == 2 && blocks.top == { brace := true, funcBody := true, inFunc := true }
      if (← atDelimiter) || functionEnds then pure () else unexpected) := by
    refine ⟨fun p P h => T.get ?_⟩
    rw [(hT.frame h).1]
    exact T.run h
  unfold closingBrace
  infer_instance

end Shifts

/-- The header of a function, if it is known how a function begins. -/
theorem fine_define [hT : Moves T] [hD : Declares T]
    (htarget : ∀ id, Fine T (modify fun p : Pass => { p with target := id }))
    (hbegin : ∀ isVoid, Fine T (modifyFunction fun f => { f.clear with isVoid := isVoid }))
    (hopen : Fine T (openBody { inFunc := true, funcBody := true }))
    (hdefined : Fine T (modifyFunction fun f => { f with defined := true })) : Fine T define := by
  refine fine_advance.bind fun _ => ⟨fun p P h => ?_⟩
  refine T.functionName h fun t t' isVoid q Q ht htext hfit hq => ?_
  have hintern : Alongside T (intern (·.internFunction t.text t.span))
      (intern (·.internFunction t.text t'.span)) :=
    ⟨fun _ _ h => T.enter (e := .function t.text) h ht hfit⟩
  have hrefuse : Alongside T (refuse .invalidFunction t.span (some t.text) : Compile Unit)
      (refuse .invalidFunction t'.span (some t.text)) :=
    T.refuseOf ht .invalidFunction fun _ => some t.text
  have hheader (id : Nat) : Fine T (do
      modify fun p => { p with target := id }
      modifyFunction fun f => { f.clear with isVoid := isVoid }
      advance
      parameters
      openFunction) := by
    refine (htarget id).bind fun _ => (hbegin isVoid).bind fun _ => fine_advance.bind fun _ => ?_
    refine fine_parameters.bind fun _ => hopen.bind fun _ => hdefined.bind fun _ => ?_
    infer_instance
  dsimp only
  rw [htext]
  exact T.run hq

/-! ## Statements of one run -/

variable {K : Stepwise}

/-- The name of a function is one of the names of the source. -/
theorem Keeping.functionName_fit (K : Keeping) (h : K.Pre p) :
    Accepts functionName p fun r _ => K.Fit r.1.text := by
  simp only [Accepts, functionName, ensures_bind, ensures_get, ensures_ite]
  split
  · next hkind =>
    refine (K.advance h).mono (fun _ q hq => ?_) fun _ _ _ => trivial
    rw [ensures_kind]
    split
    · next hvoid =>
      refine ((K.report hq.1 _ (K.known h).1).and report_token).mono (fun _ r hr => ?_) fun _ _ _ => trivial
      have hfit := K.fit hr.1.1 (hr.2 ▸ hvoid.2)
      exact (K.advance hr.1.1).mono (fun _ _ _ => hfit) fun _ _ _ => trivial
    · exact K.fit h hkind
  · trivial

instance fine_functionName {K : Keeping} : Fine K.parts functionName := by
  rw [← bind_pure functionName]
  exact ⟨fun _ _ h => K.parts.functionName h fun t t' v q Q ht _ _ hq => ht.1 ▸ K.stay hq.2⟩

/-- A local is entered into the table of its namespace, and then it is added to those of the function
unless it clashes with one of them. -/
theorem Keeping.declareLocal (K : Keeping) {t : Token} (hfit : K.Fit t.text)
    (hspan : K.Known t.span) {kind : LocalKind}
    (hput : ∀ p k f, K.Pre p →
      (TableEntry.ofLocal kind t.text).At p.program k → p.program.function? p.target = some f →
      (∀ l ∈ f.locals, Local.clashes ⟨k, kind⟩ l = false) →
      K.Keeps (putFunction { f with locals := f.locals ++ [⟨k, kind⟩] }) p) :
    Fine K.parts (declareLocal t kind) := by
  refine K.fine fun p h => ?_
  rw [Compile.declareLocal, TableEntry.enter_ofLocal]
  refine K.bind (K.enter h ?_ hspan) fun k q hq hpre => ?_
  · unfold TableEntry.ofLocal
    split <;> exact hfit
  obtain ⟨P, hP, rfl⟩ := exists_of_intern hq
  refine K.function hpre fun f hf => ?_
  unfold Function.insertLocal?
  split
  · next g hg =>
    split at hg
    · cases hg
    · next hany =>
      cases hg
      refine hput _ k f hpre (TableEntry.extends_enter hP).2 hf fun l hl => ?_
      exact Bool.eq_false_iff.2 fun hclash => hany (List.any_eq_true.2 ⟨l, hl, hclash⟩)
  · exact K.left hpre hspan

instance fine_forbidAuto : Fine K.parts forbidAuto :=
  fine_modify .refl (fun _ => rfl) (fun _ => rfl) fun _ => rfl

instance fine_autoDecl [Declares K.parts] : Fine K.parts autoDecl := by
  have hforbid : Fine K.parts (modify fun p : Pass => { p with autoAllowed := false }) :=
    fine_forbidAuto
  refine fine_get.bind fun p => ?_
  split
  · refine fine_advance.bind fun _ => hforbid.bind fun _ => (alongside_perToken _).bind fun r => ?_
    infer_instance
  · infer_instance

section Bodies

variable [hshift : Shifts K.parts]

instance fine_closeIf (outer : Bool) : Fine K.parts (closeIf outer) := by
  have helse : Fine K.parts (lookForElse outer) := by
    unfold lookForElse
    infer_instance
  have hmark : Fine K.parts (modifyBlocks fun s => s.modifyTop ({ · with ifEnded := true })) :=
    hshift.shift (.top _ (fun _ => rfl) (fun _ => rfl) (fun _ => id) fun _ => id)
  refine fine_skipNewlines.bind fun _ => fine_closeBlock.bind fun _ => fine_get.bind fun p => ?_
  split
  · infer_instance
  · exact hmark.bind fun _ => helse

omit hshift in
/-- A loop jumps back to where it continues. -/
theorem Keeping.jumpBack {rest : Compile Unit} [hrest : Fine K.parts rest] (h : K.Pre p) :
    K.Keeps (do
      let p ← get
      match p.continues with
      | [] => rest
      | label :: continues =>
        set { p with continues := continues }
        emitJump label
        rest) p := by
  change K.Keeps (match p.continues with | [] => rest | label :: continues => _) p
  split
  · exact K.keeps h
  · exact K.bind (K.done h (.refl _) rfl rfl rfl) fun _ q _ hq => K.keeps hq

/-- The end of a body, if that of a function is known. -/
theorem fine_closeInnermost (braced : Bool)
    (hleave : ∀ p, K.Pre p → p.blocks.top.funcBody = true → K.Keeps (do
      emit (if (← function).isVoid then .retVoid else .ret0)
      modify fun p => { p with target := Program.mainId }
      closeBlock) p) : Fine K.parts (closeInnermost braced) := by
  refine K.fine fun p h => ?_
  change K.Keeps (if p.blocks.top.loopBody || p.blocks.top.elseBody then _
    else if p.blocks.top.funcBody then _ else _) p
  split
  · split
    · exact Keeping.jumpBack h
    · exact K.keeps h
  split
  · next hbody => exact hleave p h hbody
  · exact K.keeps h

variable [hclose : ∀ braced, Fine K.parts (closeInnermost braced)]

instance fine_closeOne (c : Closing) : Fine K.parts (closeOne c) := by
  unfold closeOne closeAround closeNext
  infer_instance

instance fine_closeBodies (brace : Bool) : Fine K.parts (closeBodies brace) := by
  unfold closeBodies
  infer_instance

instance fine_endBody (brace : Bool) : Fine K.parts (endBody brace) := by
  unfold endBody closeBehind
  infer_instance

instance fine_closeAll : Fine K.parts closeAll := by
  have hstep (u : Unit) : Fine K.parts (closeAllStep u) := by
    unfold closeAllStep closeAllBody
    infer_instance
  unfold closeAll
  infer_instance

/-! ## Statements -/

instance fine_settleIf : Fine K.parts settleIf := by
  unfold settleIf
  infer_instance

instance fine_statementTail : Fine K.parts statementTail := by
  unfold statementTail
  infer_instance

instance fine_plainEnd (blocks : BlockStack) : Fine K.parts (plainEnd blocks) := by
  unfold plainEnd
  infer_instance

variable [hreturn : Fine K.parts returnValue]

instance fine_plainStatement : Fine K.parts plainStatement := by
  have hquit : Fine K.parts (modify fun p : Pass => { p with quitting := true }) :=
    fine_modify .refl (fun _ => rfl) (fun _ => rfl) fun _ => rfl
  have hprintStr : Fine K.parts (emit .printStr) := fine_emit ⟨rfl, rfl, nofun⟩
  have hhalt : Fine K.parts (emit .halt) := fine_emit ⟨rfl, rfl, nofun⟩
  have hprint : Fine K.parts (printItems .printPop) := fine_printItems ⟨rfl, rfl, nofun⟩
  have hstream : Fine K.parts (printItems .printStream) := fine_printItems ⟨rfl, rfl, nofun⟩
  have hhead {p : Pass} (h : K.Pre p) : K.Keeps (statementHead p.token.kind) p := by
    unfold statementHead
    split
    · exact K.keeps h
    split
    case h_1 hk => exact K.andThen (K.parts.string ⟨rfl, h⟩ hk)
    all_goals exact K.keeps h
  refine K.fine fun p h => ?_
  change K.Keeps (match p.token.kind with
    | .symbol .semicolon => _
    | .keyword .quit => _
    | k => _) p
  split
  · exact K.keeps h
  · exact K.keeps h
  · exact K.bind (K.stay h) fun _ q hq _ => by
      cases hq
      exact K.andThen (hhead h)

instance fine_innerStatement [hauto : Fine K.parts autoDecl] : Fine K.parts innerStatement := by
  refine fine_kind.bind fun k => ?_
  unfold innerFrom
  split <;> infer_instance

instance fine_body [hauto : Fine K.parts autoDecl] (brace : Bool) : Fine K.parts (body brace) := by
  have hallow : Fine K.parts (modify fun p : Pass => { p with autoAllowed := true }) :=
    fine_modify .refl (fun _ => rfl) (fun _ => rfl) fun _ => rfl
  have hbegin : Fine K.parts (modifyBlocks fun s => s.modifyTop ({ · with awaited := false })) :=
    hshift.shift (.top _ (fun _ => rfl) (fun _ => rfl) (fun _ => id) fun _ => id)
  refine hbegin.bind fun _ => fine_topBlock.bind fun top => ?_
  unfold functionStart bodyEnd
  split <;> infer_instance

/-- **Statements.** -/
instance fine_statement [hauto : Fine K.parts autoDecl] : Fine K.parts statement := by
  have hbrace : Fine K.parts (modifyBlocks fun s => s.modifyTop ({ · with brace := true })) :=
    hshift.shift (.top _ (fun _ => rfl) (fun _ => rfl) (fun _ _ => rfl) fun _ _ => rfl)
  refine fine_kind.bind fun k => fine_topBlock.bind fun top => ?_
  unfold statementFrom
  infer_instance

end Bodies

/-! ## Items -/

/-- What is known of returns and of definitions as well, wherever they stand. -/
class Whole (K : Stepwise) : Prop extends Shifts K.parts, Declares K.parts where
  target (id : Nat) : Fine K.parts (modify fun p : Pass => { p with target := id })
  returns {op : Opcode} (hop : op.isReturn = true) : Fine K.parts (emit op)
  begins (isVoid : Bool) : Fine K.parts (modifyFunction fun f => { f.clear with isVoid := isVoid })
  opens : Fine K.parts (openBody { inFunc := true, funcBody := true })
  finishes : Fine K.parts (modifyFunction fun f => { f with defined := true })

section Whole

variable [hK : Whole K]

instance whole_closeInnermost (braced : Bool) : Fine K.parts (closeInnermost braced) := by
  have hmain := hK.target Program.mainId
  have hempty (isVoid : Bool) : Fine K.parts (emit (if isVoid then .retVoid else .ret0)) :=
    hK.returns (by cases isVoid <;> rfl)
  exact fine_closeInnermost braced fun p h _ => K.keeps h

instance whole_returnValue : Fine K.parts returnValue := fine_returnValue fun _ => hK.returns

instance whole_define : Fine K.parts define :=
  fine_define hK.target hK.begins hK.opens hK.finishes

instance whole_item : Fine K.parts item := by
  unfold item
  infer_instance

end Whole

end Compile

end DeskCalc
