import DeskCalc.Proofs.Operands.Kept

/-!
# Which returns are written

The main code never returns, a function without a value returns only without one, and every other
function returns only with one (`Function.Abides`). This is decided in two places: where a `return`
is compiled, and where the body of a function ends. Both look at the open blocks and at the function
that receives code, so that the two have to agree (`BlockStack.Fenced`): inside the body of a function
code does not go to the main program.

Everything else writes no return. Most of it leaves alone which blocks are open and which function
receives code (`Compile.unmoved`), and all of it keeps a pass orderly (`Compile.orderly`).
-/

namespace DeskCalc

/-! ## Returns that a function may have -/

/-- The function `id`, which has no value if `isVoid`, may have the instruction. -/
def Opcode.Suits (id : Nat) (isVoid : Bool) (op : Opcode) : Prop :=
  op.isReturn = true → id ≠ Program.mainId ∧ (op = .retVoid ↔ isVoid = true)

theorem Opcode.suits_of_not {op : Opcode} (h : op.isReturn = false) (id : Nat) (isVoid : Bool) :
    op.Suits id isVoid :=
  fun hreturn => absurd hreturn (by simp [h])

namespace Code

/-- The code is made of instructions that are all good. -/
structure Only (good : Opcode → Prop) (c : Code) : Prop where
  holds : ∃ is, c.Holds is
  good : ∀ i ∈ c.instructions, good i.op

variable {good : Opcode → Prop} {c d : Code} {op op' : Opcode} {operands : List Nat}

theorem only_empty : Only good {} := ⟨⟨[], .empty_nil⟩, nofun⟩

theorem Only.write (h : c.Only good) (hop : operands.length = op.operandCount) (hgood : good op)
    (line : Nat) : (c.write op operands line).Only good := by
  obtain ⟨is, his⟩ := h.holds
  refine ⟨⟨_, his.writes (.single c hop line)⟩, fun i hi => ?_⟩
  rw [his.instructions_write hop] at hi
  rcases List.mem_append.1 hi with hi | hi
  · exact h.good i hi
  · cases List.mem_singleton.1 hi
    exact hgood

theorem Only.writePlain (h : c.Only good) (hop : op.operandCount = 0) (hgood : good op)
    (line : Nat) : (c.write op [] line).Only good :=
  h.write (show ([] : List Nat).length = _ from hop.symm) hgood line

theorem Only.replaceLast (h : c.Only good) (hd : c.replaceLast? op op' = some d)
    (hgood : good op') : d.Only good := by
  obtain ⟨is, his⟩ := h.holds
  obtain ⟨hop, hop', b, js, line, hb, rfl, rfl⟩ := his.of_replaceLast? hd
  have hbefore : b.Only good := by
    refine ⟨⟨js, hb⟩, fun i hi => h.good i ?_⟩
    rw [hb.instructions_write (show ([] : List Nat).length = _ from hop.symm)]
    exact List.mem_append_left _ hi
  exact hbefore.writePlain hop' hgood line

/-- Where no value is left on the stack only assignments and steps are written anew. -/
theorem Only.discardValue {t : Tally} {line : Nat} (h : c.Only good)
    (hgood : ∀ op, op.isReturn = false → op ≠ .query .read → good op)
    (hd : c.discardValue? t line = some d) : d.Only good := by
  unfold discardValue? at hd
  split at hd
  · cases hd
  next last _ =>
  split at hd
  · obtain ⟨op, hop, hd⟩ := Option.bind_eq_some_iff.1 hd
    cases last <;> cases hop
    exact h.replaceLast hd (hgood _ rfl (by simp))
  split at hd
  · split at hd
    case h_5 => cases hd
    case h_1 | h_2 =>
      obtain ⟨b, hb, rfl⟩ := Option.map_eq_some_iff.1 hd
      exact (h.replaceLast hb (hgood _ rfl (by simp))).writePlain rfl (hgood (.store _) rfl (by simp)) line
    case h_3 | h_4 => exact h.replaceLast hd (hgood _ rfl (by simp))
  · cases hd

/-- What comes before an end of the code is as good as the code. -/
theorem Only.before {is js : List Command} (h : d.Only good) (hc : c.Holds is)
    (hd : c.Writes js d) : c.Only good := by
  refine ⟨⟨is, hc⟩, fun i hi => h.good i ?_⟩
  rw [hc.instructions_eq] at hi
  rw [(hc.writes hd).instructions_eq, located_append]
  exact List.mem_append_left _ hi

end Code

/-- Every return of the function `id` is one that it may have. -/
abbrev Function.Abides (f : Function) (id : Nat) : Prop := f.code.Only (Opcode.Suits id f.isVoid)

theorem Function.abides_of_empty {f : Function} (h : f.code = {}) (id : Nat) : f.Abides id := by
  rw [Abides, h]
  exact Code.only_empty

/-- Where nothing is written every function stays as it is. -/
theorem Program.Extends.function?_of_nil {P Q : Program} {id i : Nat} {f : Function}
    (h : P.Extends id [] Q) (hf : P.function? i = some f) : Q.function? i = some f := by
  by_cases hi : i = id
  · subst hi
    obtain ⟨g, c, hg, hc, hQ⟩ := h.written
    cases hf.symm.trans hg
    rw [hQ, hc.eq_of_nil]
  · exact h.others i f hi hf

namespace Session

/-- All functions abide. -/
structure Lawful (s : Session) : Prop where
  names : s.program.main.name = "(main)" ∧ s.program.answer.name = "(read)"
  abides : ∀ id f, s.program.function? id = some f → f.Abides id

/-- All functions abide, and the answer to a `read()` does not receive code. -/
structure Upright (s : Session) : Prop extends Lawful s where
  home : s.target ≠ Program.answerId

variable {s t : Session}

theorem Lawful.congr (h : s.Lawful) (hprogram : t.program = s.program) : t.Lawful :=
  ⟨hprogram ▸ h.names, hprogram ▸ h.abides⟩

/-- A function becomes another one that abides. -/
theorem Lawful.modifyFunction (h : s.Lawful) (change : Function → Function) {id : Nat}
    (hprogram : t.program = s.program.modifyFunction change id)
    (hchange : ∀ f, s.program.function? id = some f → f.Abides id → (change f).Abides id) :
    t.Lawful where
  names := by
    have hgrows : s.program.Grows (s.program.modifyFunction change id) := .modify
    rw [hprogram]
    exact ⟨hgrows.names_eq.1.trans h.names.1, hgrows.names_eq.2.trans h.names.2⟩
  abides i f hf := by
    rw [hprogram, Program.function?_modifyFunction] at hf
    split at hf
    · next heq =>
      subst heq
      obtain ⟨g, hg, rfl⟩ := Option.map_eq_some_iff.1 hf
      exact hchange g hg (h.abides _ g hg)
    · exact h.abides i f hf

/-- Names are entered, and new functions have no code. -/
theorem Lawful.enter (h : s.Lawful) {P : Program}
    (hP : s.program.Extends Program.mainId [] P) : Lawful { s with program := P } where
  names := by
    have hgrows := hP.grows
    exact ⟨hgrows.names_eq.1.trans h.names.1, hgrows.names_eq.2.trans h.names.2⟩
  abides id f hf := by
    cases hk : s.program.function? id with
    | none =>
      rw [hP.fresh id f hk hf]
      exact Function.abides_of_empty rfl id
    | some k =>
      cases (hP.function?_of_nil hk).symm.trans hf
      exact h.abides id _ hk

end Session

/-! ## Open blocks and the function that receives code -/

namespace BlockStack

/-- Inside a function code goes to a function, the body of a function lies inside no other one, and
the outermost block is inside none. Every other block can be closed. The body of a function has a
brace, unless `B`. -/
structure Fenced (B : Prop) (s : BlockStack) (target : Nat) : Prop where
  target : ∀ b ∈ s.toList, b.inFunc = true ∨ b.funcBody = true → target ≠ Program.mainId
  bodies : s.toList.Pairwise fun b c => b.funcBody = true → c.inFunc = false ∧ c.funcBody = false
  outermost : ∀ b ∈ s.toList.getLast?, b.inFunc = false ∧ b.funcBody = false
  begun : ∀ b ∈ s.toList, b.funcBody = true → b.brace = true ∨ B
  formed : ∀ b ∈ s.toList.dropLast, b.isBody = true

variable {B : Prop} {s : BlockStack} {target : Nat} {b : Block}

theorem fenced_empty (target : Nat) : Fenced B {} target where
  target b hb := by
    cases List.mem_singleton.1 hb
    rintro (h | h) <;> cases h
  bodies := List.pairwise_singleton ..
  outermost b hb := by
    cases hb
    exact ⟨rfl, rfl⟩
  begun b hb := by
    cases List.mem_singleton.1 hb
    nofun
  formed := nofun

/-- A block opens that is no body of a function. -/
theorem Fenced.push (h : s.Fenced B target) (hbody : b.funcBody = false)
    (hinside : b.inFunc = true → s.top.inFunc = true) (hformed : b.isBody = true) :
    (s.push b).Fenced B target where
  target c hc hinner := by
    rcases List.mem_cons.1 hc with rfl | hc
    · exact h.target s.top List.mem_cons_self
        (.inl (hinside (hinner.resolve_right (by simp [hbody]))))
    · exact h.target c hc hinner
  bodies := List.pairwise_cons.2 ⟨fun _ _ hb => absurd (hbody.symm.trans hb) (by simp), h.bodies⟩
  outermost := h.outermost
  begun c hc hc' := by
    rcases List.mem_cons.1 hc with rfl | hc
    · exact absurd hc' (by simp [hbody])
    · exact h.begun c hc hc'
  formed := List.forall_mem_cons.2 ⟨hformed, h.formed⟩

/-- The body of a function opens where nothing else is open. It has no brace yet. -/
theorem fenced_function (htarget : target ≠ Program.mainId) (hb : b.isBody = true) :
    (BlockStack.push {} b).Fenced True target where
  target _ _ _ := htarget
  bodies := by
    refine List.pairwise_cons.2 ⟨fun c hc _ => ?_, List.pairwise_singleton ..⟩
    cases List.mem_singleton.1 hc
    exact ⟨rfl, rfl⟩
  outermost c hc := by
    cases hc
    exact ⟨rfl, rfl⟩
  begun _ _ _ := .inr trivial
  formed := List.forall_mem_singleton.2 hb

/-- The innermost block changes, but not whether it is inside a function. It may get a brace. -/
theorem Fenced.modifyTop (h : s.Fenced B target) {f : Block → Block}
    (hinside : ∀ b, (f b).inFunc = b.inFunc) (hbody : ∀ b, (f b).funcBody = b.funcBody)
    (hbrace : ∀ b, b.brace = true → (f b).brace = true)
    (hformed : ∀ b, b.isBody = true → (f b).isBody = true) : (s.modifyTop f).Fenced B target where
  target c hc hinner := by
    rcases List.mem_cons.1 hc with rfl | hc
    · refine h.target s.top List.mem_cons_self (hinner.imp ?_ ?_)
      · exact (hinside s.top).symm.trans
      · exact (hbody s.top).symm.trans
    · exact h.target c (List.mem_cons_of_mem _ hc) hinner
  bodies := by
    obtain ⟨hfirst, hrest⟩ := List.pairwise_cons.1 h.bodies
    refine List.pairwise_cons.2 ⟨fun c hc hb => hfirst c hc ?_, hrest⟩
    rw [← hbody]
    exact hb
  outermost c hc := by
    cases hbelow : s.below with
    | nil =>
      have hlast := h.outermost s.top (by simp [toList, hbelow])
      simp only [BlockStack.toList_modifyTop, hbelow, List.getLast?_singleton, Option.mem_def,
        Option.some.injEq] at hc
      rw [← hc, hinside, hbody]
      exact hlast
    | cons b below =>
      refine h.outermost c ?_
      rw [toList_modifyTop, hbelow, List.getLast?_cons_cons] at hc
      rwa [toList, hbelow, List.getLast?_cons_cons]
  begun c hc hc' := by
    rcases List.mem_cons.1 hc with rfl | hc
    · exact (h.begun s.top List.mem_cons_self ((hbody _).symm.trans hc')).imp_left (hbrace _)
    · exact h.begun c (List.mem_cons_of_mem _ hc) hc'
  formed := by
    have hold := h.formed
    rcases s with ⟨top, _ | ⟨b, below⟩⟩
    · rintro _ ⟨⟩
    · obtain ⟨htop, hbelow⟩ := List.forall_mem_cons.1 hold
      exact List.forall_mem_cons.2 ⟨hformed _ htop, hbelow⟩

/-- The innermost block closes. -/
theorem Fenced.pop (h : s.Fenced B target) : s.pop.Fenced B target := by
  rcases s with ⟨top, _ | ⟨b, below⟩⟩
  · exact h
  · exact ⟨fun c hc => h.target c (List.mem_cons_of_mem _ hc), (List.pairwise_cons.1 h.bodies).2,
      fun c hc => h.outermost c (by rwa [toList, List.getLast?_cons_cons]),
      fun c hc => h.begun c (List.mem_cons_of_mem _ hc), (List.forall_mem_cons.1 h.formed).2⟩

/-- Behind the body of a function no function is open. -/
theorem Fenced.leave (h : s.Fenced B target) (hbody : s.top.funcBody = true) (target' : Nat) :
    s.pop.Fenced B target' := by
  rcases s with ⟨top, _ | ⟨b, below⟩⟩
  · exact absurd hbody (by simp [(h.outermost top rfl).2])
  · have hrest := (List.pairwise_cons.1 h.bodies).1
    refine ⟨fun c hc hinner => ?_, h.pop.bodies, h.pop.outermost, h.pop.begun,
      h.pop.formed⟩
    obtain ⟨hinside, hbody'⟩ := hrest c hc hbody
    rcases hinner with hinner | hinner
    · exact absurd hinner (by simp [hinside])
    · exact absurd hinner (by simp [hbody'])

theorem Fenced.begin (h : s.Fenced True target)
    (hs : ∀ b ∈ s.toList, b.funcBody = true → b.brace = true) : s.Fenced B target :=
  ⟨h.target, h.bodies, h.outermost, fun b hb hbody => .inl (hs b hb hbody), h.formed⟩

theorem Fenced.brace (h : s.Fenced False target) :
    ∀ b ∈ s.toList, b.funcBody = true → b.brace = true :=
  fun b hb hbody => (h.begun b hb hbody).resolve_right id

theorem Fenced.mono (h : s.Fenced False target) : s.Fenced True target :=
  ⟨h.target, h.bodies, h.outermost, fun _ _ _ => .inr trivial, h.formed⟩

/-- The header of a function has been read, and nothing of its body. -/
def header : BlockStack := BlockStack.push {} { funcBody := true, inFunc := true, awaited := true }

/-- Every function whose body is open has a brace, unless nothing has been read of the body. -/
def Prompt (s : BlockStack) : Prop :=
  (∀ b ∈ s.toList, b.funcBody = true → b.brace = true) ∨ s = header

end BlockStack

namespace Pass

/-- What every part of the compiler keeps. -/
structure Tidy (B : Prop) (p : Pass) : Prop where
  named : p.Named
  function : ∃ f, p.program.function? p.target = some f
  lawful : p.toSession.Lawful
  fenced : p.blocks.Fenced B p.target

/-- What every part of the compiler keeps but the one for answers. -/
structure Orderly (B : Prop) (p : Pass) : Prop extends Tidy B p where
  home : p.target ≠ Program.answerId

/-- What items keep. -/
structure Prompt (p : Pass) : Prop extends Orderly True p where
  prompt : p.blocks.Prompt

/-- Which function receives code, whether it has a value, and which blocks are open. -/
def scene (p : Pass) : Nat × Option Bool × BlockStack :=
  (p.target, (p.program.function? p.target).map (·.isVoid), p.blocks)

variable {B : Prop} {p q : Pass}

theorem Orderly.prompt (h : p.Orderly False) : p.Prompt :=
  ⟨⟨{ h with fenced := h.fenced.mono }, h.home⟩, .inl h.fenced.brace⟩

theorem Orderly.begin (h : p.Orderly True)
    (hp : ∀ b ∈ p.blocks.toList, b.funcBody = true → b.brace = true) : p.Orderly False :=
  ⟨{ h with fenced := h.fenced.begin hp }, h.home⟩

theorem Orderly.upright (h : p.Orderly B) : p.toSession.Upright := ⟨h.lawful, h.home⟩

/-- Nothing that counts has changed, except that some tokens have been read. -/
theorem Tidy.congr (h : p.Tidy B) (hrest : ∀ t ∈ q.rest, t ∈ p.rest)
    (hprogram : q.program = p.program) (htarget : q.target = p.target)
    (hblocks : q.blocks = p.blocks) : q.Tidy B ∧ q.scene = p.scene := by
  refine ⟨⟨fun t ht => h.named t (hrest t ht), ?_, ?_, ?_⟩, ?_⟩
  · rw [hprogram, htarget]
    exact h.function
  · exact h.lawful.congr hprogram
  · rw [hblocks, htarget]
    exact h.fenced
  · rw [scene, scene, hprogram, htarget, hblocks]

/-- The function that receives code becomes another one with the same signature. -/
theorem Tidy.change (h : p.Tidy B) (change : Function → Function)
    (hprogram : q.program = p.program.modifyFunction change p.target)
    (hrest : q.rest = p.rest) (htarget : q.target = p.target) (hblocks : q.blocks = p.blocks)
    (hvoid : ∀ f, p.program.function? p.target = some f → (change f).isVoid = f.isVoid)
    (hchange : ∀ f, p.program.function? p.target = some f → f.Abides p.target →
      (change f).Abides p.target) : q.Tidy B ∧ q.scene = p.scene := by
  obtain ⟨f, hf⟩ := h.function
  have hnew : q.program.function? q.target = some ((change f).named f.name) := by
    rw [hprogram, htarget, Program.function?_modifyFunction, if_pos rfl, hf]
    rfl
  refine ⟨⟨?_, ⟨_, hnew⟩, h.lawful.modifyFunction change hprogram hchange, ?_⟩, ?_⟩
  · rw [Named, hrest]
    exact h.named
  · rw [hblocks, htarget]
    exact h.fenced
  · rw [scene, scene, hnew, htarget, hblocks, hf, Option.map_some, Option.map_some, ← hvoid f hf]
    rfl

end Pass

namespace Compile

open Pass

variable {B : Prop} {α β : Type} {p : Pass} {m : Compile α}

/-! ## What leaves the scene alone -/

/-- Run on `p`, the computation keeps the pass tidy and leaves the scene alone. -/
def UnmovedAt (B : Prop) (m : Compile α) (p : Pass) : Prop :=
  Ensures m p (fun _ q => q.Tidy B ∧ q.scene = p.scene)
    fun _ q => q.toSession.Lawful ∧ q.target = p.target

/-- A change of the function that receives code. -/
theorem unmovedAt_modifyFunction (h : p.Tidy B) {change : Function → Function}
    (hvoid : ∀ f, p.program.function? p.target = some f → (change f).isVoid = f.isVoid)
    (hchange : ∀ f, p.program.function? p.target = some f → f.Abides p.target →
      (change f).Abides p.target) : UnmovedAt B (modifyFunction change) p := by
  simp only [UnmovedAt, modifyFunction, ensures_bind, ensures_get, ensures_ite, ensures_set,
    ensures_throw]
  split
  · exact h.change change rfl rfl rfl rfl hvoid hchange
  · exact ⟨h.lawful, trivial⟩

/-- An instruction is written that the function may have. -/
theorem unmovedAt_emitWith (h : p.Tidy B) {op : Opcode} {operands : List Nat}
    (hop : operands.length = op.operandCount)
    (hsuits : ∀ f, p.program.function? p.target = some f → op.Suits p.target f.isVoid) :
    UnmovedAt B (emitWith op operands) p :=
  unmovedAt_modifyFunction h (fun _ _ => rfl) fun f hf habides =>
    Code.Only.write habides hop (hsuits f hf) _

theorem unmovedAt_putFunction {f g : Function} (h : p.Tidy B)
    (hf : p.program.function? p.target = some f) (hvoid : g.isVoid = f.isVoid)
    (hg : f.Abides p.target → g.Abides p.target) :
    UnmovedAt B (putFunction g) p := by
  refine h.change (fun _ => g) rfl rfl rfl rfl ?_ ?_ <;> intro k hk <;>
    cases hf.symm.trans hk <;> assumption

/-- What keeps a pass tidy and leaves the scene alone. -/
def unmoved (B : Prop) : Stepwise where
  Pre p := p.Tidy B
  Done p q := q.scene = p.scene
  Left _ p q := q.toSession.Lawful ∧ q.target = p.target
  Known _ := True
  Fit := IsName
  reads := true
  known _ := ⟨trivial, fun _ _ _ _ => trivial⟩
  fit h := h.named _ (List.mem_cons_self ..)
  trans h h' := h'.trans h
  left h _ _ := ⟨h.lawful, rfl⟩
  leave h h' := ⟨h'.1, h'.2.trans (congrArg Prod.fst h)⟩
  done h hahead hprogram htarget hblocks := h.congr hahead.rest hprogram htarget hblocks
  emit h hs hi := unmovedAt_emitWith h (hi.usual hs).2.1 fun _ _ =>
    Opcode.suits_of_not (hi.usual hs).1 _ _
  enter {p} h e span _ _ := by
    simp only [intern, ensures_bind, ensures_get]
    cases hk : e.enter span p.program with
    | error d => exact ⟨h.lawful, rfl⟩
    | ok r =>
      have hP := (TableEntry.extends_enter hk).1
      obtain ⟨g, hg⟩ := h.function
      have hnew := hP.function?_of_nil hg
      refine ⟨⟨h.named, ⟨g, hnew⟩, h.lawful.enter hP, h.fenced⟩, ?_⟩
      show (p.target, (r.2.function? p.target).map (·.isVoid), p.blocks) = p.scene
      rw [scene, hnew, hg]
  suppressValue {p} h t := by
    obtain ⟨f, hf⟩ := h.function
    simp only [Compile.suppressValue, function, ensures_bind, ensures_get, hf, ensures_pure,
      ensures_here]
    split
    · next code hcode =>
      exact unmovedAt_putFunction h hf rfl fun habides =>
        Code.Only.discardValue habides (fun op hop _ => Opcode.suits_of_not hop _ _) hcode
    · exact ⟨h, rfl⟩
  anyReads := rfl
  jump h _ hop label := by
    refine unmovedAt_emitWith h ?_ fun _ _ => Opcode.suits_of_not ?_ _ _ <;>
      rcases hop with rfl | rfl <;> rfl
  relabel h hf _ := unmovedAt_putFunction h hf rfl id

/-! ## What keeps a pass orderly -/

/-- What leaves the scene alone keeps the pass orderly besides. -/
theorem UnmovedAt.orderly (h : UnmovedAt B m p) (hp : p.Orderly B) :
    Ensures m p (fun _ q => q.Orderly B ∧ q.scene = p.scene) fun _ q => q.toSession.Upright := by
  refine h.mono (fun _ q hq => ⟨⟨hq.1, ?_⟩, hq.2⟩) fun _ q hq => ⟨hq.1, hq.2 ▸ hp.home⟩
  rw [show q.target = p.target from congrArg Prod.fst hq.2]
  exact hp.home

/-- What is kept by all that leaves the scene alone. -/
def unmoving (Pre : Pass → Prop) (of : ∀ {p : Pass}, Pre p → ∃ B, p.Tidy B ∧
    ∀ {α : Type} {m : Compile α}, UnmovedAt B m p →
      Ensures m p (fun _ q => Pre q ∧ True) fun _ q => q.toSession.Upright) : Stepwise where
  Pre := Pre
  Done _ _ := True
  Left _ _ q := q.toSession.Upright
  Known _ := True
  Fit := IsName
  reads := true
  known _ := ⟨trivial, fun _ _ _ _ => trivial⟩
  fit h := (of h).choose_spec.1.named _ (List.mem_cons_self ..)
  trans _ _ := trivial
  left h e he := by
    obtain ⟨B, hB, of⟩ := of h
    exact of (α := Unit) (m := throw e) ((unmoved B).left hB he)
  leave _ h := h
  done {p q} h hahead hprogram htarget hblocks := by
    obtain ⟨B, hB, of⟩ := of h
    -- A computation that leads to `q` at once.
    exact of (m := fun _ => .ok () q) ((unmoved B).done hB hahead hprogram htarget hblocks)
  emit h hs hi := by
    obtain ⟨B, hB, of⟩ := of h
    exact of ((unmoved B).emit hB hs hi)
  enter h _ _ he hspan := by
    obtain ⟨B, hB, of⟩ := of h
    exact of ((unmoved B).enter hB he hspan)
  suppressValue h t := by
    obtain ⟨B, hB, of⟩ := of h
    exact of ((unmoved B).suppressValue hB t)
  anyReads := rfl
  jump h _ hop label := by
    obtain ⟨B, hB, of⟩ := of h
    exact of ((unmoved B).jump hB hop label)
  relabel h hf labels := by
    obtain ⟨B, hB, of⟩ := of h
    exact of ((unmoved B).relabel hB hf labels)

/-- What keeps a pass orderly. -/
def orderly (B : Prop) : Stepwise :=
  unmoving (·.Orderly B) fun h => ⟨B, h.toTidy, fun hm =>
    (UnmovedAt.orderly hm h).imp fun _ _ hq => ⟨hq.1, trivial⟩⟩

theorem orderly_of_unmoved (h : Fine (unmoved B).parts m) : Fine (orderly B).parts m :=
  (orderly B).fine fun p hp => (UnmovedAt.orderly (h.out p p ⟨rfl, hp.toTidy⟩) hp).imp
    fun _ _ hq => ⟨hq.1, trivial⟩

/-! ## What items keep -/

/-- Behind a header it is enough to leave the scene alone. -/
theorem exists_unmoved (h : p.Prompt) : ∃ B, p.Tidy B ∧ ∀ {α : Type} {m : Compile α},
    UnmovedAt B m p → Ensures m p (fun _ q => q.Prompt ∧ True) fun _ q => q.toSession.Upright := by
  rcases h.prompt with hbegun | hheader
  · have hp := h.toOrderly.begin hbegun
    exact ⟨False, hp.toTidy, fun hm => (UnmovedAt.orderly hm hp).imp
      fun _ _ hq => ⟨hq.1.prompt, trivial⟩⟩
  · refine ⟨True, h.toTidy, fun hm => (UnmovedAt.orderly hm h.toOrderly).imp ?_⟩
    rintro - q ⟨hq, hscene⟩
    have hblocks : q.blocks = p.blocks := congrArg (fun s => s.2.2) hscene
    exact ⟨⟨hq, .inr (hblocks.trans hheader)⟩, trivial⟩

/-- What keeps what items keep. -/
def prompt : Stepwise := unmoving Pass.Prompt exists_unmoved

end Compile

end DeskCalc
