import DeskCalc.Proofs.Calls

/-!
# Sessions that can be reached

Two things hold of every session that comes out of a new one by calls, whatever these come to. Answers
come only while no function is being defined.

* `Session.reachable_bookkeeping`: the stacks of a session describe exactly what is open, and the pending
  labels are the exits of the open blocks.
* `Session.reachable_disciplined`: the code of every function can be run on a stack on which every
  instruction finds what it needs, and the stack is empty at the end and at every label.
-/

namespace DeskCalc

namespace Session

variable {B : Prop} {s : Session} {texts : String → Prop}

/-- The labels of every function that have a place lie where its stack is empty, and so does the
end of its code. -/
theorem Consistent.rests (h : s.Consistent B) {id : Nat} {g : Function}
    (hg : s.program.function? id = some g) :
    g.code.Leaves B [] ∧
      ∀ l offset, g.labels.get? l = some (.known offset) → g.code.RestsAt B offset := by
  obtain ⟨f, hf⟩ := h.writing
  by_cases hid : id = s.target
  · subst hid
    cases hf.function.symm.trans hg
    exact ⟨hf.code, hf.known⟩
  · have hset := hf.others id g hid hg
    refine ⟨hset.code, fun l offset hl => ?_⟩
    obtain ⟨_, hknown, hrest⟩ := hset.labels l _ hl
    cases hknown
    exact hrest

/-! ## What is open -/

/-- The stacks of a session describe exactly what is open. All of them are read from the innermost
block outwards. -/
structure Bookkeeping (s : Session) : Prop where
  /-- The exits are those of the open blocks: one that `break` jumps to for the body of a loop,
  another one for the body of an `if` or an `else`, and one for an `if` that awaits its `else`. -/
  exits : s.exits.map (·.isLoop) = s.blocks.toList.flatMap Block.exitKinds
  /-- Only behind the innermost block an `else` is awaited. -/
  awaiting : ∀ b ∈ s.blocks.below, b.ifEnded = false
  /-- The loops have a label each to which `continue` jumps. -/
  continues : s.continues.length = s.blocks.toList.countP (·.loopBody)
  inLoop : ∀ b blocks, b :: blocks <:+ s.blocks.toList →
    (b.inLoop = true ↔ ∃ c ∈ b :: blocks, c.loopBody = true)
  inFunc : ∀ b blocks, b :: blocks <:+ s.blocks.toList →
    (b.inFunc = true ↔ ∃ c ∈ b :: blocks, c.funcBody = true)
  /-- Code goes to a function of the source if the outermost block but one is its body. -/
  target : s.target ≠ Program.mainId ↔
    ∃ b, s.blocks.toList.reverse[1]? = some b ∧ b.funcBody = true
  function : ∃ f, s.program.function? s.target = some f
  sorted : (s.exits.map (·.label)).Pairwise (· > ·)
  /-- The pending labels are the exits, and they belong to the function that receives code. -/
  pending : ∀ id f, s.program.function? id = some f → ∀ l,
    f.labels.get? l = some .pending ↔ id = s.target ∧ l ∈ s.exits.map (·.label)
  /-- The other labels lie where an instruction starts or at the end. -/
  known : ∀ id f, s.program.function? id = some f → ∀ l offset,
    f.labels.get? l = some (.known offset) →
      offset ∈ f.code.instructions.map (·.offset) ∨ offset = f.code.size
  operators : s.operators = []

/-- Where blocks are nested, so are those around any of them. -/
theorem nested_of_suffix {blocks blocks' : List Block} {b : Block} (h : Nested blocks)
    (hsuffix : b :: blocks' <:+ blocks) : Nested (b :: blocks') := by
  induction h with
  | outermost ifEnded =>
    rcases List.suffix_cons_iff.1 hsuffix with heq | hnil
    · rw [heq]
      exact .outermost ifEnded
    · simp at hnil
  | inside hb hfunc h ih =>
    rcases List.suffix_cons_iff.1 hsuffix with heq | hsuffix
    · rw [heq]
      exact .inside hb hfunc h
    · exact ih hsuffix

theorem Consistent.bookkeeping (h : s.Consistent B) : s.Bookkeeping := by
  obtain ⟨f, hf⟩ := h.writing
  have hbal := h.balanced
  exact {
    exits := hbal.exits
    awaiting := hbal.ended
    continues := hbal.continues
    inLoop := fun b blocks hsuffix => (nested_of_suffix hbal.nested hsuffix).inLoop_iff
    inFunc := fun b blocks hsuffix => (nested_of_suffix hbal.nested hsuffix).inFunc_iff
    target := hbal.target.trans hbal.nested.inFunc_iff_second
    function := ⟨f, hf.function⟩
    sorted := hf.sorted
    pending := fun id g hg l => by
      by_cases hid : id = s.target
      · subst hid
        cases hf.function.symm.trans hg
        simpa using hf.pending l
      · refine ⟨fun hl => ?_, fun hl => absurd hl.1 hid⟩
        obtain ⟨_, hknown, -⟩ := (hf.others id g hid hg).labels l _ hl
        cases hknown
    known := fun id g hg l offset hl => ((h.rests hg).2 l offset hl).boundary
    operators := hf.operators }

/-- **The stacks of a session describe what is open**, where no answer has come inside a definition.
If a chunk ends with nothing open, no label is pending in any function. -/
theorem reachable_bookkeeping (h : s.Reachable texts) :
    s.Bookkeeping ∧ ∀ text, texts text → (s.compile text).1 = .ok .ready →
      (s.compile text).2.isReady = true ∧ (s.compile text).2.exits = [] ∧
      (s.compile text).2.continues = [] ∧
      ∀ id f, (s.compile text).2.program.function? id = some f → ∀ l,
        f.labels.get? l ≠ some .pending := by
  have hs : s.Consistent False := h.consistent False.elim
  refine ⟨hs.bookkeeping, fun text _ hstatus => ?_⟩
  obtain ⟨ht, hready⟩ := consistent_compile hs text False.elim
  have hready := hready hstatus
  have hidle : (s.compile text).2.blocks.isIdle = true := (Bool.and_eq_true_iff.1 hready).2
  obtain ⟨hexits, hcontinues, -⟩ := ht.balanced.of_isIdle hidle
  refine ⟨hready, hexits, hcontinues, fun id f hf l hl => ?_⟩
  have hmem := ((ht.bookkeeping.pending id f hf l).1 hl).2
  rw [show (s.compile text).2.exits = [] from hexits] at hmem
  simp at hmem

/-- A session inside a function, in a loop, behind an `if`. -/
def insideLoop : Session :=
  ((new {}).compile "define f(x) \x7b\nwhile (x > 0) \x7b\nif (x % 2) print x\n").2

theorem insideLoop_bookkeeping :
    insideLoop.Reachable (fun _ => True) ∧ insideLoop.exits.map (·.isLoop) = [false, true] ∧
      insideLoop.Bookkeeping := by
  have hreach : insideLoop.Reachable (fun _ => True) := .compile (.new {}) trivial
  exact ⟨hreach, by decide +kernel, (reachable_bookkeeping hreach).1⟩

end Session

/-! ## The stack -/

/-- The code of a function can be run on a stack. -/
structure Function.Disciplined (f : Function) : Prop where
  /-- All of the code is read as instructions. -/
  code : ∃ is, f.code.Holds is
  /-- Every instruction finds what it needs, and nothing is left at the end. -/
  run : simulate f.code.instructions [] = some []
  /-- Behind a jump nothing is left. -/
  jumps : ∀ before i after, f.code.instructions = before ++ i :: after → i.op.isJump = true →
    simulate (before ++ [i]) [] = some []
  /-- At a label nothing is left. -/
  labels : ∀ l offset, f.labels.get? l = some (.known offset) →
    ∃ before after, f.code.instructions = before ++ after ∧
      offset = (after.head?.map (·.offset)).getD f.code.size ∧ simulate before [] = some []

/-- **The code of every function keeps the discipline of the stack**, where no answer has come inside
a definition. -/
theorem Session.reachable_disciplined {s : Session} {texts : String → Prop} (h : s.Reachable texts)
    (hshort : ∀ text, texts text → text.toList.length < wordBound) {id : Nat} {f : Function}
    (hf : s.program.function? id = some f) : f.Disciplined := by
  have hs : s.Consistent True := h.consistent fun _ => hshort
  obtain ⟨⟨is, his, hrun⟩, hlabels⟩ := hs.rests hf
  have hcode := his.instructions_eq
  refine ⟨⟨is, his⟩, ?_, ?_, ?_⟩
  · rw [hcode]
    exact simulate_located (hrun trivial) 0
  · intro before i after hsplit hjump
    exact simulate_of_isJump (hrun trivial) (hcode.symm.trans hsplit) hjump
  · intro l offset hl
    obtain ⟨before, after, hsplit, hoffset, hbefore⟩ := (hlabels l offset hl).split
    exact ⟨before, after, hsplit, hoffset, hbefore trivial⟩

/-- A function with a loop, an early return and an array that gets a remainder. -/
def divisorText : String :=
  "define f(n, a[]) \x7b\nfor (; n; ) \x7b\nif (divmod(n, 3, a[]) == a[0]) return (length(a[]))\n" ++
    "n -= a[1]++\n\x7d\n\x7d\n"

theorem Session.divisorText_disciplined :
    ∃ f, ((new {}).compile divisorText).2.program.function? 2 = some f ∧
      f.code.instructions.length = 25 ∧ f.Disciplined := by
  have hlength : (((new {}).compile divisorText).2.program.function? 2).map
      (·.code.instructions.length) = some 25 := by decide +kernel
  obtain ⟨f, hf, hlength⟩ := Option.map_eq_some_iff.1 hlength
  have hreach : ((new {}).compile divisorText).2.Reachable (· = divisorText) :=
    .compile (.new {}) rfl
  refine ⟨f, hf, hlength, reachable_disciplined hreach ?_ hf⟩
  rintro _ rfl
  decide +kernel

end DeskCalc
