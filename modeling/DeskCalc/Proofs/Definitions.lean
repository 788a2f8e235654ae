import DeskCalc.Proofs.Headers
import DeskCalc.Proofs.Parameters

/-!
# Definitions and locals

A definition begins where nothing is open. The function it names is not the main code, because no
token is called `(main)`; its old code is thrown away, its parameters are declared, and its body
opens. The statement `auto` declares locals and leaves what is open as it is. Neither of them has a
bracket without its partner.
-/

namespace DeskCalc

variable {B : Option Trail} {due : Dues} {p q s : Pass} {f g : Function} {stack : List Entry}
  {u : List Token} {o : Outline} {E : Stop → Pass → Prop}

/-- The main code is not found under another name. -/
theorem Program.ne_mainId_of_name {P : Program} {id : Nat} (hmain : P.main.name = "(main)")
    (hf : P.function? id = some f) (hname : f.name ≠ "(main)") : id ≠ mainId := by
  rintro rfl
  exact hname ((congrArg Function.name (Option.some.inj hf)).symm.trans hmain)

/-! ## Changes to the signature of a function -/

theorem Pass.Stands.put {B : Prop} (h : p.Stands B f stack) (hcode : g.code = f.code)
    (hlabels : g.labels = f.labels) (hname : g.name = f.name) :
    Pass.Stands B { p with program := p.program.modifyFunction (fun _ => g) p.target } g stack := by
  refine h.congr rfl rfl (h.writing.put hcode hname ?_ ?_ ?_ h.writing.sorted rfl rfl rfl rfl)
  · rw [hlabels]
    exact fun _ _ => id
  · rw [hlabels]
    exact h.writing.known
  · rw [hlabels]
    exact h.writing.pending

/-! ## What is written and what is declared -/

/-- The tokens from here on begin with the header of a function of this name. -/
def Pass.Heads (p : Pass) (name : String) : Prop :=
  ∃ isVoid : Bool, Keyword.word .define :: ((if isVoid then [(.name, "void")] else []) ++
    [(.name, name), Symbol.word .leftParen]) <+: p.rest.map Token.word

/-- Behind the token `t` of `auto` so many locals were listed, and a comma stands last or not. -/
def Pass.Listing (B : Option Trail) (p : Pass) (t : Token) (f : Function) (state : Nat × Bool)
    (q : Pass) : Prop :=
  ∃ v as ls, Parameter.Spelt as state.2 v ∧ as.length = state.1 ∧
    q.Midway B { p with autoAllowed := false } (t :: v) p.outline
      { f with locals := f.locals ++ ls } []

theorem Pass.Listing.nil {t : Token} (h : q.Midway B p ([] ++ [t]) p.outline f []) :
    Pass.Listing B p t f (0, false) { q with autoAllowed := false } := by
  refine ⟨[], [], [], .nil, rfl, { h.toFrom with autoAllowed := rfl },
    h.inOrder.congr rfl rfl h.function, ?_, h.outline, fun b hb => ?_⟩
  · simpa using h.function
  · rw [List.append_nil]
    exact (h.drafts b hb).congr rfl rfl { (h.drafts b hb).writing with } rfl

namespace Compile

variable {Q : Unit → Pass → Prop}

theorem putFunction_holds (header : Bool) (h : p.Midway B s u o f stack due)
    (hcode : g.code = f.code) (hlabels : g.labels = f.labels) (hname : g.name = f.name)
    (hvoid : g.isVoid = f.isVoid) (hdefined : f.defined = true → g.defined = true)
    (hheader : header = false → due.header = false ∨ g.defined = true)
    (hQ : ∀ q, q.Midway B s u o g stack { due with header := header } → Q () q) :
    Ensures (putFunction g) p Q E := by
  cases h.outline
  rw [putFunction, ensures_modify]
  refine hQ _ (h.put hname ⟨rfl, rfl, rfl, rfl, .put⟩ rfl rfl rfl fun b hp => ?_)
  refine ⟨hp.toStands.put hcode hlabels hname, hp.reaches.imp fun _ hd =>
    hd.sign hp.draft_function hname hcode hlabels hvoid hdefined, fun hdue hmain => ?_⟩
  exact (hheader hdue).elim (fun hdue => hdefined (hp.declared hdue hmain)) id

/-- Changing a function is putting the changed one in its place. -/
theorem ensures_modifyFunction (hf : p.program.function? p.target = some f)
    {change : Function → Function} :
    Ensures (modifyFunction change) p Q E ↔ Ensures (putFunction (change f)) p Q E := by
  have hhas : p.program.hasFunction p.target = true := by
    rw [Program.hasFunction_eq, hf]
    rfl
  have heq : p.program.modifyFunction change p.target =
      p.program.modifyFunction (fun _ => change f) p.target :=
    Program.modifyFunction_congr hf rfl
  simp only [modifyFunction, ensures_bind, ensures_get, ensures_ite, hhas, if_true, ensures_set,
    putFunction, ensures_modify, heq]

/-- A local is declared, or it is refused. -/
theorem declareLocal_holds (h : p.Midway B s u o f stack due) {kind : LocalKind} {t : Token}
    (hQ : ∀ q l, q.Midway B s u o { f with locals := f.locals ++ [l] } stack due → Q () q) :
    Ensures (declareLocal t kind) p Q (Declines B) := by
  rw [declareLocal, TableEntry.enter_ofLocal, ensures_bind]
  refine ensures_intern h.inOrder _ (fun i q _ hq ho _ => ?_) fun d _ => h.declines d
  have hs := h.reads hq ho
  rw [List.append_nil] at hs
  rw [ensures_bind, ensures_function hs.function, Function.insertLocal?]
  split
  · next g hg =>
    split at hg <;> cases hg
    exact putFunction_holds _ hs rfl rfl rfl rfl id .inl fun r hr => hQ r _ hr
  · exact hs.declines _

/-- A token that is read if it is there. -/
theorem mark_holds {α : Type} {Q : α → Pass → Prop} {k : Token.Kind} (heof : k ≠ .eof)
    (h : p.Midway B s u o f stack due) {m n : Compile α}
    (hm : ∀ t q, t.kind = k → q.Midway B s (u ++ [t]) o f stack due → Ensures m q Q (Declines B))
    (hn : Ensures n p Q (Declines B)) :
    Ensures (do
      if ← isAt k then
        advance
        m
      else n) p Q (Declines B) := by
  simp only [ensures_bind, ensures_isAt, ensures_ite]
  split
  · next hk => exact advance_holds_kind h (beq_iff_eq.1 hk) heof hm
  · exact hn

section

variable (h : p.Midway B s u o f stack due)
include h

/-- Brackets behind a local, or none. -/
theorem arrayMark_holds {Q : Bool → Pass → Prop}
    (hQ : ∀ b v q, v.map Token.word =
      (if b then [Symbol.word .leftBracket, Symbol.word .rightBracket] else []) →
      q.Midway B s (u ++ v) o f stack due → Q b q) : Ensures arrayMark p Q (Declines B) := by
  refine mark_holds (by simp) h (fun t q ht hq => ?_) ?_
  · refine mark_holds (by simp) hq (fun t' r ht' hr => ?_) (hq.declines _)
    exact hQ true [t, t'] r (by simp [Token.word_symbol, ht, ht']) (by simpa using hr)
  · exact hQ false [] p rfl (by simpa using h)

theorem commaMark_holds {Q : Bool → Pass → Prop}
    (hQ : ∀ b v q, v.map Token.word = (if b then [Symbol.word .comma] else []) →
      q.Midway B s (u ++ v) o f stack due → Q b q) : Ensures commaMark p Q (Declines B) := by
  refine mark_holds (by simp) h (fun t q ht hq => ?_) ?_
  · exact hQ true [t] q (by simp [Token.word_symbol, ht]) hq
  · exact hQ false [] p rfl (by simpa using h)

theorem referenceMark_holds {Q : Bool → Pass → Prop}
    (hQ : ∀ b v q, v.map Token.word = (if b then [Symbol.word (.arith .multiply)] else []) →
      q.Midway B s (u ++ v) o f stack due → Q b q) : Ensures referenceMark p Q (Declines B) := by
  simp only [referenceMark, ensures_bind, ensures_isAt, ensures_ite, ensures_pure, ensures_here]
  split
  · next hk =>
    refine report_holds h fun _ q hq => ?_
    rw [← h.toFrom.token_eq hq.toFrom] at hk
    refine advance_holds_kind hq (beq_iff_eq.1 hk) (by simp) fun t r ht hr => ?_
    exact hQ true [t] r (by simp [Token.word_symbol, ht]) hr
  · exact hQ false [] p rfl (by simpa using h)

/-- The name of a local, the marks behind it, and its declaration. -/
theorem local_holds {Q : Bool → Pass → Prop} (hname : p.token.kind = .name) (reference : Bool)
    {K : Bool → Compile LocalKind} {m : Compile Unit} (count : Function → Function)
    (hkind : ∀ (q : Pass) (v : List Token) (R : LocalKind → Pass → Prop) (isArray : Bool),
      q.Midway B s v o f stack due →
      (∀ k : LocalKind, (k == .reference) = reference → k.isArray = isArray → R k q) →
      Ensures (K isArray) q R (Declines B))
    (hm : ∀ (q : Pass) (g : Function), q.Midway B q [] o g stack due →
      Ensures m q (fun _ r => r.Midway B q [] o (count g) stack due) (Declines B))
    (hQ : ∀ comma v q (a : Parameter) l,
      (if reference then [Symbol.word (.arith .multiply)] else []) ++ v.map Token.word =
        a.words ++ (if comma then [Symbol.word .comma] else []) →
      q.Midway B s (u ++ v) o (count { f with locals := f.locals ++ [l] }) stack due →
      Q comma q) : Ensures (do
      advance
      let isArray ← arrayMark
      let localKind ← K isArray
      let comma ← commaMark
      declareLocal p.token localKind
      m
      return comma) p Q (Declines B) := by
  simp only [ensures_bind, ensures_pure]
  refine advance_holds h (by simp [hname]) fun q₁ h₁ => ?_
  refine arrayMark_holds h₁ fun isArray v q₂ hv h₂ => ?_
  refine hkind q₂ _ _ isArray h₂ fun k hreference harray => ?_
  refine commaMark_holds h₂ fun comma w q₃ hw h₃ => ?_
  refine declareLocal_holds h₃ fun q₄ l h₄ => ?_
  refine (hm q₄ _ h₄.here).imp fun _ q hq => ?_
  refine hQ comma (p.token :: (v ++ w)) q ⟨p.token.text, k⟩ l ?_ (by simpa using h₄.after hq)
  simp [Parameter.words, hreference, harray, hv, hw, Token.word, hname]

/-! ## Parameters -/

theorem parameter_holds {Q : Bool → Pass → Prop}
    (hQ : ∀ comma v q (a : Parameter) l,
      v.map Token.word = a.words ++ (if comma then [Symbol.word .comma] else []) →
      q.Midway B s (u ++ v) o
        { f with locals := f.locals ++ [l], nparams := f.nparams + 1 } stack due → Q comma q) :
    Ensures parameter p Q (Declines B) := by
  rw [parameter, ensures_bind]
  refine referenceMark_holds h fun reference v q hv hq => ?_
  simp only [ensures_get, ensures_ite, ensures_refuseHere, ensures_bind (get)]
  split
  · next hname =>
    have hlocal := local_holds (Q := Q) (K := parameterKind q.token reference)
      (m := modifyFunction fun f => { f with nparams := f.nparams + 1 }) hq hname reference
      (fun f => { f with nparams := f.nparams + 1 }) ?_ ?_ fun comma w r a l hw hr => ?_
    · exact hlocal
    · intro r w R isArray hr hR
      rw [parameterKind.eq_def]
      split
      · exact hR _ rfl rfl
      · exact hr.declines _
      · exact hR _ rfl rfl
      · exact hR _ rfl rfl
    · intro r g hr
      rw [ensures_modifyFunction hr.function]
      exact putFunction_holds _ hr rfl rfl rfl rfl id .inl fun _ ht => ht
    · refine hQ comma (v ++ w) r a l ?_ (by simpa using hr)
      rw [List.map_append, hv, hw]
  · exact hq.declines _

/-- The parameters end at the closing parenthesis, and each of them has become a local. -/
theorem parameters_holds (hlocals : f.locals = []) (hnparams : f.nparams = 0)
    (hQ : ∀ v as ls q, v.map Token.word = Parameter.wordsOfAll as →
      q.Midway B s (u ++ v) o { f with locals := ls, nparams := as.length } stack due →
      q.token.kind = .symbol .rightParen → Q () q) : Ensures parameters p Q (Declines B) := by
  refine ensures_perToken (fun comma q => ∃ v as ls, Parameter.Spelt as comma v ∧
    q.Midway B s (u ++ v) o { f with locals := ls, nparams := as.length } stack due) ?_
    ⟨[], [], [], .nil, ?_⟩
  · rintro comma q ⟨v, as, ls, hv, hq⟩
    simp only [parameterStep, ensures_bind, ensures_isAt, ensures_ite, ensures_refuseHere,
      ensures_pure, ensures_function hq.function]
    split
    · next hk =>
      split
      · exact hq.declines _
      · next hcomma => exact hQ v as ls q (by simp [hv.words, hcomma]) hq (beq_iff_eq.1 hk)
    split
    · exact hq.declines _
    · next hnext =>
      refine parameter_holds hq.here fun comma' w r a l hw hr => ?_
      refine ⟨⟨v ++ w, as ++ [a], ls ++ [l], hv.snoc (fun has => ?_) hw, ?_⟩, ?_⟩
      · simpa [List.length_pos_iff.2 has] using hnext
      · simpa using hq.after hr
      · exact (Pass.From.refl q).length_lt hr.toFrom (Parameter.ne_nil_of_words hw)
  · simpa [← hlocals, ← hnparams] using h

/-- The name behind `define` is a name, and none is reserved. -/
theorem functionName_holds {Q : Token × Bool → Pass → Prop}
    (hQ : ∀ t isVoid v q, t.text ≠ "(main)" →
      v.map Token.word = (if isVoid then [(.name, "void")] else []) ++ [(.name, t.text)] →
      q.Midway B s (u ++ v) o f stack due → Q (t, isVoid) q) :
    Ensures functionName p Q (Declines B) := by
  have hnamed {v : List Token} {q : Pass} (hq : q.Midway B s v o f stack due)
      (hk : q.token.kind = .name) : q.token.text ≠ "(main)" :=
    (hq.inOrder.named q.token List.mem_cons_self hk).1
  simp only [functionName, ensures_bind, ensures_get, ensures_ite, ensures_kind, ensures_pure,
    ensures_refuseHere]
  split
  · next hname =>
    refine advance_holds h (by simp [hname]) fun q hq => ?_
    split
    · next hvoid =>
      refine report_holds hq fun _ r hr => ?_
      have hname' : r.token.kind = .name := hq.toFrom.token_eq hr.toFrom ▸ hvoid.2
      refine advance_holds hr (by simp [hname']) fun r' hr' => ?_
      rw [List.append_assoc] at hr'
      refine hQ r.token true _ r' (hnamed hr hname') ?_ hr'
      simp [Token.word, hname, hname', hvoid.1]
    · exact hQ p.token false _ q (hnamed h hname) (by simp [Token.word, hname]) hq
  · exact h.declines _

end

/-! ## Definitions -/

/-- **The function that a definition names begins anew**, and it receives code. -/
theorem beginFunction_holds (h : p.Midway B s u o f []) {id : Nat}
    (hg : p.program.function? id = some g) (hB : ∀ b ∈ B, b.anew g.name)
    (hidle : ∀ b ∈ B, p.target = Program.mainId ∧ p.exits = [] ∧ p.continues = [] ∧
      id ≠ Program.mainId) {isVoid : Bool}
    (hQ : ∀ q, q.Midway B s u { o with target := id } { g.clear with isVoid := isVoid } []
      { header := true } → Q () q) :
    Ensures (modifyFunction fun f => { f.clear with isVoid := isVoid })
      { p with target := id } Q E := by
  cases h.outline
  rw [ensures_modifyFunction hg, putFunction, ensures_modify]
  refine hQ _ ⟨{ h.toFrom with grows := h.grows.trans .put },
    h.inOrder.congr rfl rfl (Program.function?_put hg rfl), Program.function?_put hg rfl, rfl,
    fun b hb => ?_⟩
  obtain ⟨hmain, hexits, hcontinues, hid⟩ := hidle b hb
  have hp := h.drafts b hb
  have h₁ : Pass.Stands b.limited { p with target := id } g [] :=
    hp.toStands.congr rfl rfl (hp.writing.retarget hexits hg)
  refine ⟨h₁.congr rfl rfl (h₁.writing.restart hexits hid rfl rfl rfl),
    hp.reaches.imp fun _ hd => ?_, by simp⟩
  exact hd.begins (.intro hmain hexits hcontinues hid hg (hB b hb) isVoid)

theorem inside_funcBody :
    (Block.bodyIn { inFunc := true, funcBody := true } {}).Inside {} := by
  constructor <;> simp [Block.bodyIn]

/-! ## The statement `auto` -/

theorem autoStep_holds {t : Token} {state : Nat × Bool} (h : Pass.Listing B p t f state q) :
    Ensures (autoStep state) q (fun r r' =>
      match r with
      | .inl state' => Pass.Listing B p t f state' r' ∧ r'.upcoming.length < q.upcoming.length
      | .inr state' => r' = q ∧ state' = state) (Declines B) := by
  obtain ⟨count, comma⟩ := state
  obtain ⟨v, as, ls, hv, hcount, hq⟩ := h
  simp only [autoStep, ensures_bind, ensures_get, ensures_ite, ensures_refuseHere, ensures_pure]
  split
  · next hname =>
    split
    · exact hq.declines _
    · next hnext =>
      have hlocal := local_holds (m := pure ()) (Q := fun comma' r =>
          Pass.Listing B p t f (count + 1, comma') r ∧ r.upcoming.length < q.upcoming.length)
        (K := fun isArray => pure (if isArray then .array else .scalar)) hq.here hname false id
        (fun _ _ _ isArray _ hR => hR _ (by cases isArray <;> rfl) (by cases isArray <;> rfl))
        (fun _ _ hr => hr) fun comma' w r a l hw hr => ?_
      · simpa only [ensures_bind, ensures_pure] using hlocal
      · refine ⟨⟨v ++ w, as ++ [a], ls ++ [l], hv.snoc (fun has => ?_) hw, by simp [hcount], ?_⟩, ?_⟩
        · have hpos : 0 < count := (List.length_pos_iff.2 has).trans_eq hcount
          simpa [hpos] using hnext
        · simpa using hq.after hr
        · exact (Pass.From.refl q).length_lt hr.toFrom (Parameter.ne_nil_of_words hw)
  · exact ⟨trivial, trivial⟩

/-! ## Whole definitions -/

section

variable (h : p.Poised B)
include h

/-- The body of a function opens behind its parameters. -/
theorem openFunction_holds (hidle : p.blocks = {}) {id : Nat}
    (hq : q.Midway B p u { p.outline with target := id } g [] { header := true })
    (hid : ∀ b ∈ B, id ≠ Program.mainId) (hclose : q.token.kind = .symbol .rightParen)
    (hQ : ∀ t b r, t.kind = .symbol .rightParen → Block.Awaits b → b.funcBody = true →
      r.Arrives B p (u ++ [t]) (p.blocks.push b) →
      (p.strictness = .strict → r.token.kind = .symbol .leftBrace) → Q () r) :
    Ensures openFunction q Q (Declines B) := by
  rw [openFunction, ensures_bind]
  refine modifyBlocks_holds hq.here fun q₁ h₁ => ?_
  rw [ensures_bind, ensures_modifyFunction h₁.function]
  refine putFunction_holds false h₁ rfl rfl rfl rfl (fun _ => rfl) (fun _ => .inr rfl)
    fun q₂ h₂ => ?_
  rw [← (Pass.From.refl q).token_eq h₂.toFrom] at hclose
  rw [ensures_bind]
  refine advance_holds_kind h₂ hclose (by simp) fun t q₃ ht h₃ => ?_
  have hopened {r : Pass}
      (hr : r.Midway B q [t] { p.outline with
        blocks := p.blocks.push (Block.bodyIn { inFunc := true, funcBody := true } p.blocks.top)
        target := id } { g with defined := true } [])
      (hbrace : p.strictness = .strict → r.token.kind = .symbol .leftBrace) : Q () r := by
    refine hQ t _ r ht (Block.awaits_bodyIn rfl rfl _) rfl
      ((hq.after hr).arrives (fun b hb => ?_) rfl) hbrace
    refine (h.balanced b hb).pushFunction ?_ ?_ rfl rfl (hid b hb)
    · show p.blocks.isIdle = true
      rw [hidle]
      rfl
    · show (Block.bodyIn _ p.blocks.top).Inside {}
      rw [hidle]
      exact inside_funcBody
  rw [ensures_bind, ensures_isAt, ensures_ite]
  split
  · next hbrace => exact hopened h₃ fun _ => beq_iff_eq.1 hbrace
  · rw [ensures_bind, ensures_here]
    refine report_holds h₃ fun hmode r hr => ?_
    exact hopened hr fun hstrict => absurd (hq.strictness.trans hstrict) hmode

/-- **The header of a function**, where nothing is open. -/
theorem define_holds (hB : ∀ b ∈ B, ∀ name, p.Heads name → b.anew name) (hidle : p.blocks = {})
    (hk : p.token.kind = .keyword .define)
    (hQ : ∀ t v b q, t.kind = .keyword .define → Mild p.strictness (kindsOf v) →
      Block.Awaits b → b.funcBody = true → q.Arrives B p (t :: v) (p.blocks.push b) →
      (p.strictness = .strict → q.token.kind = .symbol .leftBrace) → Q () q) :
    Ensures define p Q (Declines B) := by
  obtain ⟨f, hf⟩ := h.midway
  rw [define, ensures_bind]
  refine advance_holds_kind hf hk (by simp) fun t₁ q₁ ht₁ h₁ => ?_
  rw [ensures_bind]
  refine functionName_holds h₁ fun t isVoid v₂ q₂ ht hv₂ h₂ => ?_
  rw [ensures_bind, ensures_isAt, ensures_ite]
  split
  · next hparen =>
    rw [ensures_bind]
    refine ensures_intern h₂.inOrder (.function _) ?_ fun d _ => h₂.declines d
    · rintro id q₃ ⟨g, hg, hname⟩ hp₃ hop₃ -
      have h₃ := h₂.reads hp₃ hop₃
      rw [List.append_nil] at h₃
      have hstart : ∀ b ∈ B, q₃.target = Program.mainId ∧ q₃.exits = [] ∧ q₃.continues = [] ∧
          id ≠ Program.mainId := by
        intro b hb
        obtain ⟨hexits, hcontinues, hmain⟩ :=
          (h.balanced b hb).of_isIdle (show p.blocks.isIdle = true by rw [hidle]; rfl)
        refine ⟨(congrArg Outline.target h₃.outline).trans hmain,
          (congrArg Outline.exits h₃.outline).trans hexits,
          (congrArg Outline.continues h₃.outline).trans hcontinues, ?_⟩
        exact Program.ne_mainId_of_name (h₃.drafts b hb).writing.names.1 hg (hname ▸ ht)
      have hheads : p.Heads g.name := by
        have hparen₂ := Token.word_symbol (beq_iff_eq.1 hparen)
        refine ⟨isVoid, (q₂.upcoming.map (·.token)).map Token.word, ?_⟩
        rw [h₂.toFrom.rest, Pass.rest, hname]
        simp [Token.word_keyword ht₁, hv₂, hparen₂]
      rw [ensures_bind, ensures_modify, ensures_bind]
      refine beginFunction_holds h₃ hg (fun b hb => hB b hb _ hheads) hstart fun q₄ h₄ => ?_
      have hk₄ : q₄.token.kind = .symbol .leftParen := by
        rw [h₂.toFrom.token_eq h₄.toFrom]
        exact beq_iff_eq.1 hparen
      rw [ensures_bind]
      refine advance_holds_kind h₄ hk₄ (by simp) fun t₅ q₅ ht₅ h₅ => ?_
      rw [ensures_bind]
      refine parameters_holds h₅ rfl rfl fun v₆ params ls q₆ hv₆ h₆ hclose => ?_
      refine openFunction_holds h hidle h₆ (fun b hb => (hstart b hb).2.2.2) hclose
        fun t₇ b q ht₇ hb hfunc hq hbrace => ?_
      refine hQ t₁ (v₂ ++ t₅ :: (v₆ ++ [t₇])) b q ht₁ ?_ hb hfunc (by simpa using hq) hbrace
      have hmild₂ : Mild p.strictness (kindsOf v₂) :=
        .of_words hv₂ (by cases isVoid <;>
          simp [Token.Kind.isOther, Token.Kind.isLead, Token.Kind.compares])
      have hspelt : Parameter.Spelt params false v₆ := ⟨by simpa using hv₆, by simp⟩
      have hmild₆ : Mild p.strictness (kindsOf v₆) := hspelt.mild
      simpa [kindsOf_cons ht₅, kindsOf_single ht₇] using hmild₂.append hmild₆.wrap
  · exact h₂.declines _

/-- **The statement `auto`.** -/
theorem autoDecl_holds (hk : p.token.kind = .keyword .autoDecl)
    (hQ : ∀ t v q, p.autoAllowed = true → t.kind = .keyword .autoDecl →
      Mild p.strictness (kindsOf v) →
      q.Arrives B { p with autoAllowed := false } (t :: v) p.blocks → Q () q) :
    Ensures autoDecl p Q (Declines B) := by
  obtain ⟨f, hf⟩ := h.midway
  simp only [autoDecl, ensures_bind, ensures_get, ensures_ite, ensures_refuseHere]
  split
  · next hauto =>
    refine advance_holds_kind hf hk (by simp) fun t q₁ ht h₁ => ?_
    rw [ensures_modify]
    refine ensures_perToken (Pass.Listing B p t f)
      (fun state q hq => (autoStep_holds hq).imp fun r q' hr => ?_) (.nil h₁)
    rcases r with state' | ⟨count, comma⟩
    · exact hr
    obtain ⟨rfl, rfl⟩ := hr
    obtain ⟨v, as, ls, hv, -, hq⟩ := hq
    simp only [ensures_pure]
    split
    · exact hq.declines _
    next hcomma =>
    cases Bool.eq_false_iff.2 hcomma
    split
    · exact hq.declines _
    rw [ensures_atDelimiter]
    split
    · exact hQ t v q' hauto ht hv.mild (hq.arrives h.balanced rfl)
    · exact unexpected_holds hq
  · exact hf.declines _

end

end Compile

end DeskCalc
