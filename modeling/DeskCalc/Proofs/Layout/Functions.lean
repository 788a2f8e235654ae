import DeskCalc.Proofs.Layout.Texts

/-!
# The code of a function

A definition is a header, a brace, statements and a brace. While its parameters are read each of
them gets a local, and parameters with different names get different locals (`Program.Binds`). The
body is laid out like the main code, and its closing brace writes the return that every function
ends with.
-/

namespace DeskCalc

/-! ## Parameters -/

namespace Parameter

/-- Two parameters have the same name in the same namespace. -/
def clashes (a b : Parameter) : Bool := a.name == b.name && a.kind.isArray == b.kind.isArray

theorem all_wordsOfAll_isClean (as : List Parameter) : (wordsOfAll as).all isClean = true :=
  List.all_eq_true.2 (forall_wordsOfAll (fun _ => rfl) (by decide) as)

/-- What the next parameter begins with, or what stands behind the last one. -/
theorem exists_words_eq (as : List Parameter) (ws : List Word) :
    ∃ w us, wordsOfAll as ++ Symbol.word .rightParen :: ws = w :: us ∧
      w.1 ≠ .symbol .leftBracket ∧ w.1 ≠ .symbol .comma ∧
      (w.1 = .symbol .rightParen ↔ as = []) := by
  cases as with
  | nil => exact ⟨_, _, rfl, by simp, by simp, by simp⟩
  | cons a as =>
    rw [wordsOfAll_cons]
    rcases a with ⟨name, _ | _ | _⟩ <;> exact ⟨_, _, rfl, by simp, by simp, by simp⟩

end Parameter

/-- Different names have different indices. -/
theorem Program.Binds.clashes_eq {P : Program} {a b : Parameter} {l m : Local} (hl : P.Binds a l)
    (hm : P.Binds b m) (hab : b.clashes a = false) : l.clashes m = false := by
  rw [Bool.eq_false_iff] at hab ⊢
  rintro hlm
  simp only [Local.clashes, Bool.and_eq_true, beq_iff_eq, hl.1, hm.1] at hlm
  have hname := hl.2
  rw [hlm.1, hlm.2] at hname
  refine hab ?_
  simp [Parameter.clashes, Option.some.inj (hname.symm.trans hm.2), hlm.2]

/-- Between the name of a function and its body, where `params` have been read. -/
structure Pass.Heading (ps : List Nat) (id : Nat) (name : String) (params : List Parameter)
    (ws : List Word) (p : Pass) : Prop where
  here : p.Here ps { Outline.idle with target := id } [] 0 ws
  function : ∃ f, p.program.function? id = some f ∧ f.name = name ∧ f.nparams = params.length ∧
    ∀ l ∈ f.locals, ∃ a ∈ params, p.program.Binds a l

/-- A function is being defined, and its body is awaited. -/
def Outline.defining (id : Nat) : Outline :=
  { Outline.idle with
    blocks := ({} : BlockStack).push (Block.bodyIn { inFunc := true, funcBody := true } {})
    target := id }

/-- The body of a function has begun. -/
def Outline.defined (id : Nat) : Outline :=
  { Outline.idle with
    blocks := ({} : BlockStack).push { brace := true, funcBody := true, inFunc := true }
    target := id }

/-- The pass is at a place where nothing is open, and `R` holds of the program. -/
structure Pass.Rests (R : Program → Prop) (ws : List Word) (p : Pass) : Prop where
  stands : ∃ f, p.Stands False f []
  lenient : p.strictness = .lenient
  outline : p.outline = .idle
  words : p.words = ws
  clean : ∀ w ∈ ws, w.1 ≠ .error
  program : R p.program

namespace Compile

variable {p : Pass} {ps : List Nat} {id n : Nat} {name : String} {params : List Parameter}
  {o : Outline} {code : List Placed} {w : Word} {ws : List Word} {E : Stop → Pass → Prop}
  {Q : Unit → Pass → Prop} {k : Nat}

theorem advance_here_keeps (h : p.Here ps o code n (w :: ws)) (heof : w.1 ≠ .eof)
    (hQ : ∀ q, q.Here ps o code n ws → q.program = p.program → Q () q) :
    Ensures advance p Q OnlyShort := by
  have hhere : Ensures advance p (fun _ q => q.Here ps o code n ws) OnlyShort :=
    advance_here h heof fun q hq _ => hq
  refine (hhere.and (ensures_advance h.inOrder (h.kind_eq ▸ heof))).mono ?_ fun _ _ => And.left
  exact fun _ q hq => hQ q hq.1 hq.2.2.2

theorem advance_heading (h : p.Heading ps id name params (w :: ws)) (heof : w.1 ≠ .eof)
    (hQ : ∀ q, q.Heading ps id name params ws → Q () q) : Ensures advance p Q OnlyShort :=
  advance_here_keeps h.here heof fun q hq hprogram => hQ q ⟨hq, hprogram ▸ h.function⟩

theorem isAt_eq (h : p.Heading ps id name params (w :: ws)) (k : Token.Kind) :
    (p.token.kind == k) = (w.1 == k) := by rw [h.here.kind_eq]

/-! ## Marks -/

theorem referenceMark_heading {Q : Bool → Pass → Prop} {b : Bool}
    (h : p.Heading ps id name params
      ((if b then [Symbol.word (.arith .multiply)] else []) ++ (.name, w.2) :: ws))
    (hQ : ∀ q, q.Heading ps id name params ((.name, w.2) :: ws) → Q b q) :
    Ensures referenceMark p Q OnlyShort := by
  simp only [referenceMark, ensures_bind, ensures_isAt, ensures_ite, ensures_here, ensures_pure]
  cases b with
  | false =>
    rw [isAt_eq h]
    exact hQ p h
  | true =>
    rw [isAt_eq h, if_pos (by simp)]
    exact report_here h.here (advance_heading h (by simp) hQ)

theorem arrayMark_heading {Q : Bool → Pass → Prop} {b : Bool}
    (h : p.Heading ps id name params
      ((if b then [Symbol.word .leftBracket, Symbol.word .rightBracket] else []) ++ w :: ws))
    (hw : w.1 ≠ .symbol .leftBracket) (hQ : ∀ q, q.Heading ps id name params (w :: ws) → Q b q) :
    Ensures arrayMark p Q OnlyShort := by
  simp only [arrayMark, ensures_bind, ensures_isAt, ensures_ite, ensures_pure]
  cases b with
  | false =>
    rw [isAt_eq h, if_neg (by simpa using hw)]
    exact hQ p h
  | true =>
    rw [isAt_eq h, if_pos (by simp)]
    refine advance_heading h (by simp) fun q hq => ?_
    rw [isAt_eq hq, if_pos (by simp)]
    exact advance_heading hq (by simp) hQ

theorem commaMark_heading {Q : Bool → Pass → Prop} {b : Bool}
    (h : p.Heading ps id name params ((if b then [Symbol.word .comma] else []) ++ w :: ws))
    (hw : w.1 ≠ .symbol .comma) (hQ : ∀ q, q.Heading ps id name params (w :: ws) → Q b q) :
    Ensures commaMark p Q OnlyShort := by
  simp only [commaMark, ensures_bind, ensures_isAt, ensures_ite, ensures_pure]
  cases b with
  | false =>
    rw [isAt_eq h, if_neg (by simpa using hw)]
    exact hQ p h
  | true =>
    rw [isAt_eq h, if_pos (by simp)]
    exact advance_heading h (by simp) hQ

theorem ensures_parameterKind {Q : LocalKind → Pass → Prop} (t : Token) (kind : LocalKind) :
    Ensures (parameterKind t (kind == .reference) kind.isArray) p Q E ↔ Q kind p := by
  cases kind <;> rfl

/-! ## Locals -/

/-- The function that receives code is changed, but neither in its name nor in its code. -/
theorem putFunction_here (h : p.Here ps o code n ws) {f g : Function}
    (hf : p.program.function? o.target = some f) (hcode : g.code = f.code)
    (hlabels : g.labels = f.labels) (hname : g.name = f.name) (hvoid : g.isVoid = f.isVoid)
    (hQ : ∀ q, q.Here ps o code n ws → q.program.function? o.target = some g →
      p.program.Grows q.program → Q () q) : Ensures (putFunction g) p Q E := by
  obtain ⟨hk, hlaid⟩ := h.stands_of_function? hf
  rw [← h.target_eq] at hf hQ
  have hput := hk.put hcode hlabels hname
  have hgrows : p.program.Grows (p.program.modifyFunction (fun _ => g) p.target) := .put
  rw [putFunction, ensures_modify]
  refine hQ _ ⟨⟨g, hput, ?_⟩, h.lenient, h.outline, h.words, h.clean, h.awake⟩
    hput.writing.function hgrows
  obtain ⟨is, his, hplaced, hknown⟩ := hlaid.code
  refine ⟨⟨is, hcode ▸ his, hplaced.imp fun _ _ => Program.Places.mono hgrows fun _ _ => id,
    hlabels ▸ hknown⟩, hlabels ▸ hlaid.labels, hvoid.trans hlaid.isVoid⟩

/-- **A parameter with a new name becomes a local.** -/
theorem declareLocal_heading {a : Parameter} {t : Token} (ht : t.text = a.name)
    (hnew : ∀ b ∈ params, b.clashes a = false) (h : p.Heading ps id name params ws)
    (hQ : ∀ q, q.Here ps { Outline.idle with target := id } [] 0 ws →
      (∃ f, q.program.function? id = some f ∧ f.name = name ∧ f.nparams = params.length ∧
        ∀ l ∈ f.locals, ∃ b ∈ params ++ [a], q.program.Binds b l) → Q () q) :
    Ensures (declareLocal t a.kind) p Q OnlyShort := by
  obtain ⟨f, hf, hname, hparams, hlocals⟩ := h.function
  have hfp : p.program.function? p.target = some f := h.here.target_eq ▸ hf
  rw [declareLocal, TableEntry.enter_ofLocal, ensures_bind]
  refine ensures_intern h.here.inOrder _ (fun i q hi hq ho hr => ?_) fun _ h => h
  have hbinds : q.program.Binds a ⟨i, a.kind⟩ := .of_at (ht ▸ hi)
  have hqhere : q.Here ps { Outline.idle with target := id } [] 0 ws :=
    h.here.progress hq ho ((Pass.words_eq_of_rest_eq hr).trans h.here.words) List.Forall₂.nil
  obtain ⟨g, c, hg, -, hqg⟩ := hq.program.written
  cases hfp.symm.trans hg
  rw [h.here.target_eq] at hqg
  have hk := (hqhere.stands_of_function? hqg).1
  have hfree : f.locals.any (Local.clashes ⟨i, a.kind⟩) = false := by
    rw [List.any_eq_false]
    intro l hl
    obtain ⟨b, hb, hbl⟩ := hlocals l hl
    simp [hbinds.clashes_eq (hbl.mono hq.program.grows) (hnew b hb)]
  rw [ensures_bind, ensures_function hk.writing.function, Function.insertLocal?, hfree,
    if_neg Bool.false_ne_true]
  refine putFunction_here hqhere hqg rfl rfl rfl rfl fun r hr hrg hgrows => ?_
  refine hQ r hr ⟨_, hrg, hname, hparams, fun l hl => ?_⟩
  rcases List.mem_append.1 hl with hl | hl
  · obtain ⟨b, hb, hbl⟩ := hlocals l hl
    exact ⟨b, List.mem_append_left _ hb, (hbl.mono hq.program.grows).mono hgrows⟩
  · cases List.mem_singleton.1 hl
    exact ⟨a, by simp, hbinds.mono hgrows⟩

theorem parameter_heading {Q : Bool → Pass → Prop} {a : Parameter} {comma : Bool}
    (h : p.Heading ps id name params
      (a.words ++ ((if comma then [Symbol.word .comma] else []) ++ w :: ws)))
    (hbracket : w.1 ≠ .symbol .leftBracket) (hcomma : w.1 ≠ .symbol .comma)
    (hnew : ∀ b ∈ params, b.clashes a = false)
    (hQ : ∀ q, q.Heading ps id name (params ++ [a]) (w :: ws) → Q comma q) :
    Ensures parameter p Q OnlyShort := by
  rw [Parameter.words, List.append_assoc, List.cons_append] at h
  rw [parameter, ensures_bind]
  refine referenceMark_heading (w := (.name, a.name)) h fun q hq => ?_
  have hkind : q.token.kind = .name := hq.here.kind_eq
  have htext : q.token.text = a.name := Pass.text_of_words hq.here.words (.inr (.inr rfl))
  simp only [ensures_bind, ensures_get, ensures_ite, hkind, if_true]
  refine advance_heading hq (by simp) fun q hq => ?_
  -- behind the brackets there is a comma or what follows the parameter
  obtain ⟨v, vs, hv, hvb⟩ : ∃ v vs,
      (if comma then [Symbol.word .comma] else []) ++ w :: ws = v :: vs ∧
        v.1 ≠ .symbol .leftBracket := by
    cases comma with
    | false => exact ⟨w, ws, rfl, hbracket⟩
    | true => exact ⟨_, _, rfl, by simp⟩
  rw [hv] at hq
  refine arrayMark_heading hq hvb fun q hq => ?_
  rw [ensures_parameterKind]
  rw [← hv] at hq
  refine commaMark_heading hq hcomma fun q hq => ?_
  refine declareLocal_heading htext hnew hq fun q hq hfound => ?_
  obtain ⟨f, hf, hname, hparams, hlocals⟩ := hfound
  rw [ensures_modifyFunction (hq.stands_of_function? hf).1.writing.function]
  refine putFunction_here hq hf rfl rfl rfl rfl fun r hr hrf hgrows => ?_
  refine hQ r ⟨hr, _, hrf, hname, by simp [hparams], fun l hl => ?_⟩
  obtain ⟨b, hb, hbl⟩ := hlocals l hl
  exact ⟨b, hb, hbl.mono hgrows⟩

/-- **The parameters**, none of which has the name of another one. -/
theorem parameters_heading
    (h : p.Heading ps id name [] (Parameter.wordsOfAll params ++ Symbol.word .rightParen :: ws))
    (hparams : params.Pairwise fun a b => a.clashes b = false)
    (hQ : ∀ q, q.Heading ps id name params (Symbol.word .rightParen :: ws) → Q () q) :
    Ensures parameters p Q OnlyShort := by
  -- a comma has been read just if parameters have been read and others follow
  refine ensures_perToken (fun comma q => ∃ done rest, params = done ++ rest ∧
    q.Heading ps id name done (Parameter.wordsOfAll rest ++ Symbol.word .rightParen :: ws) ∧
    (comma = true ↔ done ≠ [] ∧ rest ≠ [])) ?_ ⟨[], params, rfl, h, by simp⟩
  rintro comma q ⟨done, rest, hall, hq, hcomma⟩
  obtain ⟨w, us, hw, -, -, hend⟩ := Parameter.exists_words_eq rest ws
  have hqw : q.Heading ps id name done (w :: us) := hw ▸ hq
  obtain ⟨f, hf, -, hcount, -⟩ := hq.function
  simp only [parameterStep, ensures_bind, ensures_isAt, isAt_eq hqw, beq_iff_eq, hend, ensures_ite,
    ensures_pure, ensures_function (hq.here.stands_of_function? hf).1.writing.function, hcount]
  cases rest with
  | nil =>
    have hno : comma = false := by simpa using mt hcomma.1 (by simp)
    rw [if_pos rfl, hno, if_neg Bool.false_ne_true]
    rw [List.append_nil] at hall
    exact hQ q (hall ▸ hq)
  | cons a rest =>
    have hgo : ¬(decide (done.length > 0) && !comma) = true := by
      simp only [Bool.and_eq_true, decide_eq_true_eq, Bool.not_eq_true', not_and]
      intro hpos hno
      have hyes := hcomma.2 ⟨List.length_pos_iff.1 hpos, by simp⟩
      simp [hno] at hyes
    rw [if_neg (by simp), if_neg hgo]
    rw [Parameter.wordsOfAll_cons, List.append_assoc, List.append_assoc] at hq
    obtain ⟨v, vs, hv, hvb, hvc, -⟩ := Parameter.exists_words_eq rest ws
    rw [hv] at hq
    have hnew : ∀ b ∈ done, b.clashes a = false := by
      rw [hall, List.pairwise_append] at hparams
      exact fun b hb => hparams.2.2 b hb a (by simp)
    refine parameter_heading hq hvb hvc hnew fun r hr => ?_
    refine ⟨⟨done ++ [a], rest, by simp [hall], hv ▸ hr, by simp⟩, ?_⟩
    refine hq.here.length_lt hr.here ?_
    have hne : 0 < a.words.length := by
      rw [Parameter.words, List.length_append, List.length_cons]
      omega
    simp only [List.length_append, List.length_cons]
    omega

/-! ## Headers -/

/-- **The function that a definition names begins anew.** -/
theorem beginFunction_heading (h : p.Here ps .idle [] 0 ws) {g : Function}
    (hg : p.program.function? id = some g) (hname : g.name = name) (hid : id ≠ Program.mainId)
    (hQ : ∀ q, q.Heading ps id name [] ws → Q () q) :
    Ensures (modifyFunction fun f => { f.clear with isVoid := false }) { p with target := id } Q
      E := by
  obtain ⟨f, hf, -⟩ := h.function
  have hexits : p.exits = [] := h.exits_eq
  have h₁ : Pass.Stands False { p with target := id } g [] :=
    hf.congr rfl rfl (hf.writing.retarget hexits hg)
  rw [ensures_modifyFunction hg, putFunction, ensures_modify]
  have h₂ := h₁.writing.restart (g := { g.clear with isVoid := false }) hexits hid rfl rfl rfl
  refine hQ _ ⟨⟨⟨_, h₁.congr rfl rfl h₂, ?_⟩, h.lenient, ?_, h.words, h.clean, rfl⟩, ?_⟩
  · exact ⟨⟨[], .empty_nil, .nil, nofun⟩, rfl, rfl⟩
  · rw [← h.outline]
    rfl
  · exact ⟨_, h₂.function, hname, rfl, nofun⟩

section

variable (h : p.Here ps .idle [] 0 (Keyword.word .define :: (.name, name) ::
    Symbol.word .leftParen :: (Parameter.wordsOfAll params ++ Symbol.word .rightParen :: ws)))
  (hparams : params.Pairwise fun a b => a.clashes b = false)
  (hQ : ∀ q id f, q.Here ps (.defining id) [] 0 ws → q.program.function? id = some f →
    f.name = name → f.defined = true → Q () q)
include h hparams hQ

theorem define_here : Ensures define p Q OnlyShort := by
  rw [define, ensures_bind]
  refine advance_here h (by simp) fun q hq _ => ?_
  have hkind : q.token.kind = .name := hq.kind_eq
  have htext : q.token.text = name := Pass.text_of_words hq.words (.inr (.inr rfl))
  have hmain : name ≠ "(main)" := htext ▸ (hq.inOrder.named q.token (by simp [Pass.rest]) hkind).1
  simp only [functionName, ensures_bind, ensures_get, ensures_ite, hkind, if_true]
  refine advance_here hq (by simp) fun r hr _ => ?_
  have hparen : r.token.kind = .symbol .leftParen := hr.kind_eq
  simp only [ensures_kind, hparen, ensures_pure, ensures_isAt, BEq.rfl, if_true, and_false,
    reduceCtorEq, if_false]
  refine ensures_intern hr.inOrder (.function _) ?_ fun _ => id
  rintro id s ⟨g, hg, hgname⟩ hs ho hrest
  have hshere : s.Here ps .idle [] 0 _ :=
    hr.progress hs ho ((Pass.words_eq_of_rest_eq hrest).trans hr.words) List.Forall₂.nil
  have hid : id ≠ Program.mainId := by
    obtain ⟨k, hk, -⟩ := hshere.function
    exact Program.ne_mainId_of_name hk.writing.names.1 hg (by rw [hgname, htext]; exact hmain)
  refine beginFunction_heading hshere hg (hgname.trans htext) hid fun q hq => ?_
  refine advance_heading hq (by simp) fun q hq => ?_
  refine parameters_heading hq hparams fun q hq => ?_
  obtain ⟨k, hk, hname, -⟩ := hq.function
  simp only [openFunction, ensures_bind, ensures_isAt, ensures_ite, ensures_pure, ensures_here]
  rw [openBody, modifyBlocks, ensures_modify]
  have hopen := hq.here.blocks (q.blocks.push
    (Block.bodyIn { inFunc := true, funcBody := true } q.blocks.top))
  rw [ensures_modifyFunction (hopen.stands_of_function? hk).1.writing.function]
  refine putFunction_here hopen hk rfl rfl rfl rfl fun r hr hrk _ => ?_
  rw [hq.here.blocks_eq] at hr
  refine advance_here_keeps hr (by simp) fun t ht hprogram => ?_
  have hdefined : t.program.function? id = some { k with defined := true } := hprogram ▸ hrk
  have hdone : Q () t := hQ t id _ ht hdefined hname rfl
  split
  · exact hdone
  · exact report_here ht hdone

/-- **The header of a function.** -/
theorem item_define : Ensures item p Q OnlyShort := by
  have hkind : p.token.kind = .keyword .define := h.kind_eq
  have hidle : p.blocks.isIdle = true := by
    rw [h.blocks_eq]
    rfl
  simp only [item, ensures_bind, ensures_isAt, ensures_ite, ensures_get, hkind, BEq.rfl, if_true,
    hidle]
  exact define_here h hparams hQ

end

/-! ## Bodies -/

/-- The line feed behind the brace of a function is read with it. -/
theorem functionStart_here (h : p.Here ps o code n (lines k ++ w :: ws)) (hline : w.1 ≠ .newline)
    (hauto : w.1 ≠ .keyword .autoDecl) (hstep : p.previous.blocksStep = false)
    (hQ : ∀ q, q.Here ps o code n (lines (k - 1) ++ w :: ws) → q.previous.blocksStep = false →
      Q () q) : Ensures functionStart p Q OnlyShort := by
  have hallow {R : Unit → Pass → Prop} (hR : ∀ q, q.Here ps o code n (lines k ++ w :: ws) →
      q.previous.blocksStep = false → R () q) :
      Ensures (modify fun p => { p with autoAllowed := true }) p R OnlyShort := by
    rw [ensures_modify]
    refine hR _ (h.congr rfl (fun f hf => ?_) rfl rfl h.outline h.awake) hstep
    exact hf.congr rfl rfl { hf.writing with }
  rw [functionStart, ensures_bind]
  refine hallow fun q hq hstep => ?_
  cases k with
  | zero =>
    have hkind : q.token.kind = w.1 := hq.kind_eq
    simp only [ensures_bind, ensures_isAt, ensures_ite, ensures_pure, hkind, beq_iff_eq, hauto,
      hline, if_false]
    exact hQ q hq hstep
  | succ k =>
    have hkind : q.token.kind = .newline := hq.kind_eq
    simp only [ensures_bind, ensures_isAt, ensures_ite, ensures_pure, hkind, beq_iff_eq,
      reduceCtorEq, if_false, if_true]
    refine advance_here hq (by simp) fun r hr hprevious => hQ r hr ?_
    rw [hprevious]
    rfl

/-- **The brace behind the header**, and the line feed behind it if there is one. -/
theorem item_leftBrace_function
    (h : p.Here ps (.defining id) code n (Symbol.word .leftBrace :: (lines k ++ w :: ws)))
    (hline : w.1 ≠ .newline) (hauto : w.1 ≠ .keyword .autoDecl)
    (hQ : ∀ q, q.Here ps (.defined id) code n (lines (k - 1) ++ w :: ws) →
      q.previous.blocksStep = false → Q () q) : Ensures item p Q OnlyShort := by
  have hkind : p.token.kind = .symbol .leftBrace := h.kind_eq
  have htop : p.blocks.top = Block.bodyIn { inFunc := true, funcBody := true } {} := by
    rw [h.blocks_eq]
    rfl
  rw [Ensures, item_eq_statement (by simp [hkind]), statement_eq, statementFrom, htop, hkind,
    if_neg (by simp [Block.bodyIn]), if_pos (by simp [Block.bodyIn])]
  refine (ensures_bind _ _).2 (forbidAuto_here h fun q hq _ => ?_)
  refine (ensures_bind _ _).2 (modifyBlocks_here hq _ fun q hq _ => ?_)
  refine (ensures_bind _ _).2 (advance_here hq (by simp) fun q hq hprevious => ?_)
  have hfunc : q.blocks.top.funcBody = true := by
    rw [hq.blocks_eq]
    rfl
  have hbegun : (bodyBegun q).Here ps (.defined id) code n (lines k ++ w :: ws) := by
    rw [bodyBegun, hq.blocks_eq]
    exact hq.blocks _
  rw [Ensures, body_eq, if_pos hfunc, if_pos rfl]
  exact functionStart_here hbegun hline hauto (by rw [bodyBegun, hprevious]; rfl) hQ

/-! ## The end of a function -/

variable {R : Program → Prop}

theorem advance_rests (h : p.Rests R (w :: ws)) (heof : w.1 ≠ .eof) :
    Ensures advance p (fun _ q => q.Rests R ws) OnlyShort := by
  obtain ⟨f, hf⟩ := h.stands
  refine advance_complete (.start hf.inOrder h.words) heof
    (isClear_of_clean hf.inOrder h.words h.clean heof) fun q hq hprogram => ?_
  obtain ⟨-, ⟨⟨is, his, hdenotes⟩, ho⟩, hw⟩ := hq
  cases hdenotes
  exact ⟨⟨f, hf.reads his ho⟩, his.strictness.trans h.lenient, his.outline_eq.trans h.outline, hw,
    fun v hv => h.clean v (List.mem_cons_of_mem _ hv), hprogram ▸ h.program⟩

theorem statementTail_rests (h : p.Rests R (lines k ++ w :: ws)) (hw : w.1.isBlank = false)
    (hdefine : w.1 ≠ .keyword .define) :
    Ensures statementTail p (fun _ q => q.Rests R (w :: ws)) OnlyShort := by
  rw [statementTail, ensures_bind]
  refine (skipWhile_lines (I := fun us q => q.Rests R us) (fun _ _ hq => hq.words)
    (fun us q hq => advance_rests hq (by simp)) h rfl hw).imp fun _ q hq => ?_
  have hkind : q.token.kind = w.1 := Pass.kind_of_words hq.words
  simp only [ensures_bind, ensures_get, ensures_kind, hkind, hdefine, and_false, if_false,
    ensures_pure]
  exact hq

/-- **The body of a function ends with a return.** -/
theorem closeBodies_function (h : p.Here ps (.defined id) code ps.length ws) :
    Ensures (closeBodies true) p (fun b q => b = false ∧ q.Rests (fun P =>
      ∃ f, P.function? id = some f ∧ f.LaidOut P (code ++ placed [.plain .ret0])) ws)
      OnlyShort := by
  have htop : p.blocks.top = { brace := true, funcBody := true, inFunc := true } := by
    rw [h.blocks_eq]
    rfl
  obtain ⟨f, hf, hlaid⟩ := h.function
  have hinner : Ensures (closeInnermost true) p (fun _ q => q.Rests (fun P =>
      ∃ f, P.function? id = some f ∧ f.LaidOut P (code ++ placed [.plain .ret0])) ws)
      OnlyShort := by
    simp only [closeInnermost, ensures_bind, ensures_topBlock, ensures_ite, htop, Bool.or_self,
      Bool.false_eq_true, if_false, if_true, ensures_function hf.writing.function,
      hlaid.isVoid]
    refine emit_here h rfl fun q hq _ => ?_
    obtain ⟨g, hg, hglaid⟩ := hq.function
    have hexits : q.exits = [] := hq.exits_eq
    have hmain := hg.writing.retarget hexits
      (show q.program.function? Program.mainId = some q.program.main from rfl)
    rw [ensures_modify, closeBlock, modifyBlocks, ensures_modify]
    refine ⟨⟨_, hg.congr rfl rfl { hmain with }⟩, hq.lenient, ?_, hq.words, hq.clean,
      g, ?_, hglaid.laidOut fun l hl => ?_⟩
    · simp only [Pass.outline, hq.blocks_eq, hexits, hq.continues_eq, hq.quitting_eq]
      rfl
    · have hfunction := hg.writing.function
      rwa [hq.target_eq] at hfunction
    · have hpending := (hg.writing.pending l).1 hl
      rw [hexits] at hpending
      cases hpending
  simp only [closeBodies, ensures_bind, ensures_get, htop]
  refine iterate_of_closesOn (Nat.le_refl _) ?_
  rw [closeOne, ensures_ite, if_neg (by simp), ensures_bind, ensures_get, ensures_bind]
  refine hinner.mono (fun _ q hq => ?_) fun _ _ he => he
  have hblocks : q.blocks = {} := congrArg Outline.blocks hq.outline
  simp only [closeAround, ensures_bind, ensures_get, hblocks, Bool.false_and, Bool.false_eq_true,
    if_false, ensures_pure]
  rw [Ensures, closeNext_eq, hblocks]
  exact ⟨rfl, hq⟩

/-- **The closing brace of a function.** -/
theorem item_rightBrace_function
    (h : p.Here ps (.defined id) code ps.length
      (Symbol.word .rightBrace :: (lines (k + 1) ++ w :: ws))) (hw : w.1.isBlank = false)
    (hdefine : w.1 ≠ .keyword .define) : Ensures item p (fun _ q => q.Rests (fun P =>
      ∃ f, P.function? id = some f ∧ f.LaidOut P (code ++ placed [.plain .ret0])) (w :: ws))
      OnlyShort := by
  have hbase : (Outline.defined id).IsBase := .inr ⟨rfl, rfl, rfl⟩
  refine item_of_plainStatement beginsBody_rightBrace (by simp) hbase h fun q hq _ => ?_
  have hkind : q.token.kind = .symbol .rightBrace := hq.kind_eq
  refine plainStatement_of_head (by simp [hkind]) (by simp [hkind]) ?_
  rw [hkind]
  have hdepth : 1 < (Outline.defined id).blocks.depth := Nat.lt_succ_self 1
  refine (endBody_of_closeBodies hdepth hq (.inl (Nat.succ_pos k))
    fun r hr _ => closeBodies_function hr).mono (fun _ r hr => ?_) fun _ _ he => he
  refine plainEnd_of_blocks (.inl ?_) (statementTail_rests hr hw hdefine)
  rw [hq.blocks_eq, show r.blocks = {} from congrArg Outline.blocks hr.outline]
  exact nofun

theorem concludes_of_rests (h : p.Rests R [(.eof, "")]) : p.Concludes R where
  eof := Pass.kind_of_words h.words
  lenient := h.lenient
  closes _ := by
    refine ⟨_, closeAll_of_isIdle ?_, h.program⟩
    rw [show p.toSession.atInputEnd.blocks = {} from congrArg Outline.blocks h.outline]
    rfl

/-- Along the items no function loses its name. -/
theorem ComesTo.grows {Q : Pass → Prop} (h : ComesTo Q p) (hp : p.Steady False) :
    ComesTo (fun q => Q q ∧ p.program.Grows q.program) p := by
  have hlead {P : Program} {q : Pass} (hq : LeadsTo Q q) (hq' : q.Steady False)
      (hgrows : P.Grows q.program) : LeadsTo (fun r => Q r ∧ P.Grows r.program) q := by
    induction hq with
    | step heof hshort hquit hnext ih =>
      refine .step heof hshort hquit fun r hr hsteady hnot => ?_
      obtain ⟨-, hedits⟩ := (item_edits hq').ok hr
      have hkept : P.Grows (committed r).program := by
        rw [committed, Session.program_commit]
        exact hgrows.trans hedits.retains.grows
      exact ih r hr hsteady (fun hQ => hnot ⟨hQ, hkept⟩) (steady_commit hsteady) hkept
  exact h.imp (fun hQ => ⟨hQ, .refl _⟩) fun h => hlead h hp (.refl _)

theorem committed_rests (h : p.Rests R ws) (hp : p.Steady False) : (committed p).Rests R ws where
  stands := (steady_commit hp).stands.imp fun _ => Pass.Drafts.toStands
  lenient := by
    rw [← h.lenient]
    unfold committed Session.commit
    split <;> rfl
  outline := by
    rw [← h.outline]
    unfold committed Session.commit
    split <;> rfl
  words := h.words
  clean := h.clean
  program := by
    rw [committed, Session.program_commit]
    exact h.program

/-! ## Whole texts -/

theorem marks_self (ps : List Nat) : Marks ps 0 ps := fun i t hi => by rwa [Nat.zero_add]

/-- The statements are the main code. -/
theorem comesTo_main {ss : List Stmt} (hwf : Stmt.allWellFormed false false ss = true)
    (hps : ps = Stmt.positionsOfAll 0 ss)
    (h : p.Here ps .idle [] 0 (lines k ++ (Stmt.wordsOfAll ss ++ [(.eof, "")])))
    (hstep : p.previous.blocksStep = false) : ComesTo (Pass.Concludes fun P =>
      P.main.name = "(main)" ∧ P.main.LaidOut P (Stmt.layoutOfAll 0 {} ss)) p := by
  have hend (n : Nat) (code : List Placed) : Sequel.Comes ps n (.eof, "") [] (.rest code) :=
    ⟨by simp [Sequel.isElse], rfl, by simp, by simp [Sequel.isElse]⟩
  obtain ⟨v, vs, hv, -, -⟩ := Stmt.comes_of_allWellFormed hwf (hend 0 []) 0 []
  rw [hv] at h
  refine (comesTo_lines h).then fun q hq => ?_
  obtain ⟨hq, hq'⟩ := hq
  rw [← hv] at hq
  refine (Stmt.runAll ss .idle [] 0 false false {} (.eof, "") [] q hwf
    ⟨Outline.isBase_idle, Outline.allows_idle ps, hps ▸ marks_self ps, .nil _, hend _ _⟩ hq
    (blocksStep_of_lines hq' hstep)).then fun r hr => .inl ?_
  obtain ⟨m, hr⟩ := hr
  have hlength : 0 + (Stmt.positionsOfAll 0 ss).length = ps.length := by rw [hps, Nat.zero_add]
  exact concludes_of_met (hlength ▸ hr)

/-- The statements are the body of a function. -/
theorem comesTo_define {ss : List Stmt} {before between inside behind : Nat}
    (hwf : Stmt.allWellFormed false true ss = true)
    (hparams : params.Pairwise fun a b => a.clashes b = false)
    (hps : ps = Stmt.positionsOfAll 0 ss)
    (h : p.Here ps .idle [] 0 (lines before ++ Keyword.word .define :: (.name, name) ::
      Symbol.word .leftParen :: (Parameter.wordsOfAll params ++ Symbol.word .rightParen ::
      (lines between ++ Symbol.word .leftBrace :: (lines inside ++ (Stmt.wordsOfAll ss ++
      Symbol.word .rightBrace :: (lines (behind + 1) ++ [(.eof, "")]))))))) :
    ComesTo (Pass.Concludes fun P => ∃ id f, P.function? id = some f ∧ f.name = name ∧
      f.LaidOut P (Stmt.layoutOfAll 0 {} ss ++ placed [.plain .ret0])) p := by
  have hlength : 0 + (Stmt.positionsOfAll 0 ss).length = ps.length := by rw [hps, Nat.zero_add]
  refine (comesTo_lines h).then fun q hq => .inr ?_
  replace hq := hq.1
  have hkind : q.token.kind = .keyword .define := hq.kind_eq
  refine leadsTo_of_item (by simp [hkind]) (item_define hq hparams
    fun r id f hr hf hname hdefined => ⟨hr.quitting_eq, fun hsteady => ?_⟩)
  have hallows : (Outline.defined id).Allows ps false true {} :=
    ⟨by simp, by simp, by simp, fun _ => rfl⟩
  have hfunction : r.program.function? r.target = some f := hr.target_eq ▸ hf
  have hbody : ComesTo (Pass.Rests (fun P => ∃ f, P.function? id = some f ∧
      f.LaidOut P (Stmt.layoutOfAll 0 {} ss ++ placed [.plain .ret0])) [(.eof, "")])
      (committed r) := by
    refine (comesTo_lines (committed_here hr hsteady)).then fun q hq => .inr ?_
    replace hq := hq.1
    have hclose : Sequel.Comes ps 0 (Symbol.word .rightBrace) (lines (behind + 1) ++ [(.eof, "")])
        (.rest []) := Sequel.comes_rightBrace 0 _ []
    obtain ⟨v, vs, hv, -, hfirst⟩ := Stmt.comes_of_allWellFormed hwf hclose 0 []
    rw [hv] at hq
    have hkind : q.token.kind = .symbol .leftBrace := hq.kind_eq
    refine leadsTo_of_item (by simp [hkind]) (item_leftBrace_function hq hfirst.ne_newline
      (Token.Kind.ne_of_followsStatement hfirst.follows rfl) fun t ht hstep =>
        ⟨ht.quitting_eq, fun hs => ?_⟩)
    rw [← hv] at ht
    refine (comesTo_rightBrace (Stmt.runAll ss) (.inr ⟨rfl, rfl, rfl⟩) hallows hwf
      (hps ▸ marks_self ps) (committed_here ht hs) hstep).then fun u hu => .inr ?_
    have hukind : u.token.kind = .symbol .rightBrace := hu.kind_eq
    refine leadsTo_of_item (by simp [hukind]) ((item_rightBrace_function (hlength ▸ hu) rfl
      (by simp)).mono (fun _ v hv => ⟨?_, fun hs => .inl (committed_rests hv hs)⟩) fun _ _ he => he)
    exact congrArg Outline.quitting hv.outline
  refine (hbody.grows (steady_commit hsteady)).then fun q hq => .inl ?_
  obtain ⟨hq, hgrows⟩ := hq
  obtain ⟨g, hg, hgname⟩ := hgrows.names id f (by rwa [committed, Session.program_commit])
  refine concludes_of_rests { hq with program := ?_ }
  obtain ⟨k, hk, hlaid⟩ := hq.program
  cases hk.symm.trans hg
  exact ⟨id, g, hg, hgname.trans hname, hlaid⟩

end Compile

/-- Where statements stand: they are the main code, or the body of a function. The numbers count
blank lines. -/
inductive Scope
  | main (before : Nat)
  | define (before : Nat) (name : String) (params : List Parameter)
      (between inside behind : Nat)

namespace Scope

/-- The name of the function that receives the code. -/
def name : Scope → String
  | main _ => "(main)"
  | define _ name _ _ _ _ => name

/-- The statements stand inside a function. -/
def inFunc : Scope → Bool
  | main _ => false
  | define _ _ _ _ _ _ => true

/-- No parameter has the name of another one. -/
def Distinct : Scope → Prop
  | main _ => True
  | define _ _ params _ _ _ => params.Pairwise fun a b => a.clashes b = false

instance : DecidablePred Distinct
  | main _ => .isTrue trivial
  | define _ _ params _ _ _ =>
    inferInstanceAs (Decidable (params.Pairwise fun a b => a.clashes b = false))

/-- The words of a text with these statements. -/
def words (ss : List Stmt) : Scope → List Word
  | main before => lines before ++ Stmt.wordsOfAll ss ++ [(.eof, "")]
  | define before name params between inside behind =>
    lines before ++ Keyword.word .define :: (.name, name) :: Symbol.word .leftParen ::
      Parameter.wordsOfAll params ++ Symbol.word .rightParen :: lines between ++
      Symbol.word .leftBrace :: lines inside ++ Stmt.wordsOfAll ss ++
      Symbol.word .rightBrace :: lines (behind + 1) ++ [(.eof, "")]

/-- The code of the function. -/
def layout (ss : List Stmt) : Scope → List Placed
  | main _ => Stmt.layoutOfAll 0 {} ss
  | define _ _ _ _ _ _ => Stmt.layoutOfAll 0 {} ss ++ placed [.plain .ret0]

theorem all_words_isClean (scope : Scope) (ss : List Stmt) :
    (scope.words ss).all isClean = true := by
  cases scope with
  | main before => simp [words, Stmt.all_wordsOfAll_isClean, isClean]
  | define before name params between inside behind =>
    simp [words, Stmt.all_wordsOfAll_isClean, Parameter.all_wordsOfAll_isClean, isClean]

end Scope

open Compile

namespace Session

/-- A new session compiles the text and accepts the end of the input, and the code of the function
of this name is laid out so. -/
def LaysOut (options : Options) (text name : String) (code : List Placed) : Prop :=
  ∃ status s t id f, (new options).compile text = (.ok status, s) ∧ s.finish = (.ok (), t) ∧
    t.program.function? id = some f ∧ f.name = name ∧ f.LaidOut t.program code

/-- Whatever scope the statements stand in, a session that begins with their words lays them out. -/
theorem laysOut_of_words {options : Options} (hlenient : options.strictness = .lenient)
    {scope : Scope} {ss : List Stmt} {text : String}
    (hwords : (readTokens .lenient text).map (·.token.word) = scope.words ss)
    (hss : Stmt.allWellFormed false scope.inFunc ss = true) (hparams : scope.Distinct)
    (hroom : ∀ e, ((new options).compile text).1 = .error e → ¬e.IsShortage) :
    LaysOut options text scope.name (scope.layout ss) := by
  have hstart := here_start hlenient hwords (scope.all_words_isClean ss)
    (Stmt.positionsOfAll 0 ss)
  have hcomes : Ensures advance (Pass.start (new options) text) (fun _ p =>
      ComesTo (Pass.Concludes fun P => ∃ id f, P.function? id = some f ∧ f.name = scope.name ∧
        f.LaidOut P (scope.layout ss)) p) OnlyShort := by
    refine advance_here hstart (by simp) fun p hp hprevious => ?_
    have hstep : p.previous.blocksStep = false := by
      rw [hprevious]
      rfl
    cases scope with
    | main before =>
      rw [Scope.words, List.append_assoc] at hp
      refine (comesTo_main hss rfl hp hstep).then fun q hq => .inl ?_
      refine { hq with closes := fun hsteady => ?_ }
      obtain ⟨r, hr, hname, hlaid⟩ := hq.closes hsteady
      exact ⟨r, hr, Program.mainId, r.program.main, rfl, hname, hlaid⟩
    | define before name params between inside behind =>
      exact comesTo_define hss hparams rfl (by simpa [Scope.words, Scope.name] using hp)
  obtain ⟨status, s, t, hs, ht, id, f, hf, hname, hlaid⟩ :=
    exists_finish_of_comesTo (consistent_new options) hcomes hroom
  exact ⟨status, s, t, id, f, hs, ht, hf, hname, hlaid⟩

/-- **Statements are compiled to their layout.** A text is a list of statements, written as main
code or as the body of a function, each with its braces, line feeds and blank lines as its tree
says. Unless a table is full it is compiled by a new session, the end of the input is accepted, and
the code of the function is the layout of the statements, every jump going where the layout says. -/
theorem compile_layout {options : Options} (hlenient : options.strictness = .lenient)
    {scope : Scope} {ss : List Stmt} {text : String}
    (hwords : (readTokens .lenient text).map (·.token.word) = scope.words ss)
    (hss : Stmt.allWellFormed false scope.inFunc ss = true) (hparams : scope.Distinct)
    (hroom : ∀ e, ((new options).compile text).1 = .error e → ¬e.IsShortage) :
    ∃ status s t id f, (new options).compile text = (.ok status, s) ∧ s.finish = (.ok (), t) ∧
      t.program.function? id = some f ∧ f.name = scope.name ∧
      f.LaidOut t.program (scope.layout ss) :=
  laysOut_of_words hlenient hwords hss hparams hroom

/-- A function in whose body an `else` belongs to the second of two nested `if`s. -/
def nestedText : String :=
  "define f(x, *a[]) \x7b\n if (x)\n  if (y) \x7b\n   print \"no\", x\n  \x7d else\n" ++
    "   while (1)\n    break\n\n return a[x]\n\x7d\n"

/-- Where the statements of `nestedText` stand. -/
def nestedScope : Scope := .define 0 "f" [⟨"x", .scalar⟩, ⟨"a", .reference⟩] 0 1 0

/-- The statements of `nestedText`. -/
def nestedStatements : List Stmt :=
  [.ifThen (.var "x") (.bare 1 (.ifElse (.var "y")
      (.braced 0 1 [.simple (.print [.text "\"no\"", .value (.var "x")]) 0] 0)
      (.bare 1 (.whileLoop (.number "1") (.bare 1 (.simple .breakLoop 1)))))),
    .simple (.returnValue (some (.elem "a" (.var "x")))) 0]

theorem nestedText_layout :
    nestedScope.layout nestedStatements =
      [.plain (.var "x"), .jumpZero 13, .plain (.var "y"), .jumpZero 9, .plain (.string "no"),
        .plain (.plain .printPop), .plain (.var "x"), .plain (.plain .printPop), .jump 13,
        .plain (.plain .one), .jumpZero 13, .jump 13, .jump 9, .plain (.var "x"),
        .plain (.elem "a"), .plain (.plain .ret), .plain (.plain .ret0)] ∧
    ∃ status s t id f, (new {}).compile nestedText = (.ok status, s) ∧ s.finish = (.ok (), t) ∧
      t.program.function? id = some f ∧ f.name = nestedScope.name ∧
      f.LaidOut t.program (nestedScope.layout nestedStatements) := by
  have hwords : (readTokens .lenient nestedText).map (·.token.word) =
      nestedScope.words nestedStatements := by decide +kernel
  have hok : ((new {}).compile nestedText).1 = .ok .ready := by decide +kernel
  refine ⟨by decide, compile_layout rfl hwords (by decide) (by decide) fun e he => ?_⟩
  rw [hok] at he
  cases he

end Session

end DeskCalc
