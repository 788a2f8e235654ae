import DeskCalc.Proofs.Progress
import DeskCalc.Proofs.Resting

/-!
# A session in the middle of a statement

`Writing B s f stack` says how the program of a session stands while the function `f` receives code
and that code has left `stack`: the exits of the open blocks are the pending labels of `f`, every
other function is settled, and the main code is settled up to the checkpoint. What a part of the
compiler reads and writes keeps this (`Writing.progress`), and so do the labels it makes.

When a part of the compiler refuses the source less is known, but enough to go back to the last
checkpoint: `Recoverable`.
-/

namespace DeskCalc

variable {B : Prop}

/-- The state of a program while the function `f` receives code. -/
structure Writing (B : Prop) (s : Session) (f : Function) (stack : List Entry) : Prop where
  function : s.program.function? s.target = some f
  code : f.code.Leaves B stack
  known : ∀ i offset, f.labels.get? i = some (.known offset) → f.code.RestsAt B offset
  pending : ∀ i, f.labels.get? i = some .pending ↔ i ∈ s.exits.map (·.label)
  sorted : (s.exits.map (·.label)).Pairwise (· > ·)
  others : ∀ i g, i ≠ s.target → s.program.function? i = some g → g.Settled B
  anchored : s.program.main.Anchored B s.checkpoint
  names : s.program.main.name = "(main)" ∧ s.program.answer.name = "(read)"
  operators : s.operators = []

/-- The program can be taken back to the checkpoint. -/
structure Recoverable (B : Prop) (s : Session) : Prop where
  function : ∃ f, s.program.function? s.target = some f
  others : ∀ i g, i ≠ s.target → i ≠ Program.mainId → s.program.function? i = some g → g.Settled B
  anchored : s.program.main.Anchored B s.checkpoint
  names : s.program.main.name = "(main)" ∧ s.program.answer.name = "(read)"

theorem Writing.recoverable {s : Session} {f : Function} {stack : List Entry}
    (h : Writing B s f stack) : Recoverable B s where
  function := ⟨f, h.function⟩
  others i g hi _ := h.others i g hi
  anchored := h.anchored
  names := h.names

/-! ## Programs that grow -/

namespace Program.Extends

variable {P Q : Program} {id : Nat} {is : List Command}

/-- A function is kept, or it is a new one without code. -/
theorem settled (h : P.Extends id is Q) {i : Nat} {g : Function} (hi : i ≠ id)
    (hg : Q.function? i = some g) (hP : ∀ g, P.function? i = some g → g.Settled B) :
    g.Settled B := by
  cases hf : P.function? i with
  | some f =>
    cases (h.others i f hi hf).symm.trans hg
    exact hP _ hf
  | none =>
    rw [h.fresh i g hf hg]
    exact Function.settled_of_empty rfl rfl

theorem anchored (h : P.Extends id is Q) {c : Checkpoint} (hP : P.main.Anchored B c) :
    Q.main.Anchored B c := by
  by_cases hid : Program.mainId = id
  · subst hid
    obtain ⟨f, d, hf, hd, hQ⟩ := h.written
    cases hf
    have hmain : Q.main = { P.main with code := d } := Option.some.inj hQ
    rw [hmain]
    exact hP.mono hd fun _ _ => id
  · have hmain : Q.main = P.main := Option.some.inj (h.others _ _ hid rfl)
    rw [hmain]
    exact hP

theorem names (h : P.Extends id is Q) (hP : P.main.name = "(main)" ∧ P.answer.name = "(read)") :
    Q.main.name = "(main)" ∧ Q.answer.name = "(read)" := by
  obtain ⟨f, hf, hname⟩ := h.name_eq (i := Program.mainId) rfl
  obtain ⟨g, hg, hname'⟩ := h.name_eq (i := Program.answerId) rfl
  have hmain : Q.main = f := Option.some.inj hf
  have hanswer : Q.answer = g := Option.some.inj hg
  rw [hmain, hanswer]
  exact ⟨hname.trans hP.1, hname'.trans hP.2⟩

end Program.Extends

variable {p q : Pass} {u : List Token} {is : List Command} {f : Function}
  {stack stack' : List Entry}

theorem Recoverable.progress (h : Recoverable B p.toSession) (hq : p.Progress u is q) :
    Recoverable B q.toSession where
  function := by
    obtain ⟨f, c, -, -, hf⟩ := hq.program.written
    exact ⟨_, hq.target ▸ hf⟩
  others i g hi hmain hg := by
    rw [hq.target] at hi
    exact hq.program.settled hi hg fun g' hg' => h.others i g' hi hmain hg'
  anchored := by
    rw [hq.checkpoint]
    exact hq.program.anchored h.anchored
  names := hq.program.names h.names

/-- **Reading tokens and writing code.** -/
theorem Writing.progress (h : Writing B p.toSession f stack) (hq : p.Progress u is q)
    (ho : q.operators = p.operators) (hrun : B → execute is stack = some stack') :
    ∃ c, Writing B q.toSession { f with code := c } stack' := by
  obtain ⟨g, c, hg, hc, hf⟩ := hq.program.written
  cases h.function.symm.trans hg
  exact ⟨c, {
    function := hq.target ▸ hf
    code := h.code.writes hc hrun
    known := fun i offset hi => (h.known i offset hi).writes hc
    pending := fun i => by
      rw [hq.exits]
      exact h.pending i
    sorted := hq.exits ▸ h.sorted
    others := fun i g hi hg => by
      rw [hq.target] at hi
      exact hq.program.settled hi hg fun g' hg' => h.others i g' hi hg'
    anchored := by
      rw [hq.checkpoint]
      exact hq.program.anchored h.anchored
    names := hq.program.names h.names
    operators := ho.trans h.operators }⟩

/-! ## Labels -/

theorem LabelTable.get?_push_of_get? {t : LabelTable} {l l' : Label} {i : Nat}
    (hi : t.get? i = some l) : (t.push l').get? i = some l := by
  rw [get?_push, if_neg, hi]
  exact Nat.ne_of_lt (Array.getElem?_eq_some_iff.1 hi).1

theorem Program.main_modifyFunction (P : Program) (f : Function → Function) (id : Nat) :
    (P.modifyFunction f id).main =
      if id = mainId then (f P.main).named P.main.name else P.main := by
  rcases id with _ | _ | id <;> rfl

variable {s s' : Session} {g : Function}

/-- Something else than the code of the function changes. -/
theorem Writing.put (h : Writing B s f stack) (hcode : g.code = f.code) (hname : g.name = f.name)
    (hkept : ∀ i offset, f.labels.get? i = some (.known offset) →
      g.labels.get? i = some (.known offset))
    (hknown : ∀ i offset, g.labels.get? i = some (.known offset) → f.code.RestsAt B offset)
    (hpending : ∀ i, g.labels.get? i = some .pending ↔ i ∈ s'.exits.map (·.label))
    (hsorted : (s'.exits.map (·.label)).Pairwise (· > ·))
    (hprogram : s'.program = s.program.modifyFunction (fun _ => g) s.target)
    (htarget : s'.target = s.target) (hcheckpoint : s'.checkpoint = s.checkpoint)
    (hoperators : s'.operators = s.operators) : Writing B s' g stack where
  function := by
    rw [hprogram, htarget]
    exact Program.function?_put h.function hname
  code := hcode ▸ h.code
  known i offset hi := hcode ▸ hknown i offset hi
  pending := hpending
  sorted := hsorted
  others i k hi hk := by
    rw [htarget] at hi
    rw [hprogram, Program.function?_modifyFunction, if_neg hi] at hk
    exact h.others i k hi hk
  anchored := by
    have hf := h.function
    rw [hcheckpoint, hprogram, Program.main_modifyFunction]
    split
    · next hid =>
      rw [hid] at hf
      have hmain : s.program.main = f := Option.some.inj hf
      have hsame : f.code.Writes [] g.code := hcode ▸ .nil
      exact (hmain ▸ h.anchored).mono hsame hkept
    · exact h.anchored
  names := by
    obtain ⟨hmain, hanswer⟩ := (hprogram ▸ .put : s.program.Grows s'.program).names_eq
    rw [hmain, hanswer]
    exact h.names
  operators := hoperators.trans h.operators

/-- The exits of the open blocks have been made. -/
theorem Writing.label_lt (h : Writing B s f stack) {i : Nat} (hi : i ∈ s.exits.map (·.label)) :
    i < f.labels.size := by
  have hget := (h.pending i).2 hi
  exact (Array.getElem?_eq_some_iff.1 hget).1

/-- **A label where the stack is empty.** -/
theorem Writing.makeLabel (h : Writing B s f []) :
    Writing B
      { s with
        program := s.program.modifyFunction
          (fun _ => { f with labels := f.labels.push (.known f.code.size) }) s.target }
      { f with labels := f.labels.push (.known f.code.size) } [] := by
  refine h.put rfl rfl ?_ ?_ ?_ h.sorted rfl rfl rfl rfl
  · exact fun i offset => LabelTable.get?_push_of_get?
  · intro i offset hi
    rw [LabelTable.get?_push] at hi
    split at hi
    · cases hi
      exact h.code.restsAt
    · exact h.known i offset hi
  · intro i
    rw [LabelTable.get?_push]
    split
    · next hi =>
      refine ⟨nofun, fun hmem => ?_⟩
      have := h.label_lt hmem
      omega
    · exact h.pending i

/-- **The pending label of a block that opens.** -/
theorem Writing.openExit (h : Writing B s f stack) (isLoop : Bool) :
    Writing B
      { s with
        program := s.program.modifyFunction
          (fun _ => { f with labels := f.labels.push .pending }) s.target
        exits := ⟨f.labels.size, isLoop⟩ :: s.exits }
      { f with labels := f.labels.push .pending } stack := by
  refine h.put rfl rfl ?_ ?_ ?_ ?_ rfl rfl rfl rfl
  · exact fun i offset => LabelTable.get?_push_of_get?
  · intro i offset hi
    rw [LabelTable.get?_push] at hi
    split at hi
    · cases hi
    · exact h.known i offset hi
  · intro i
    rw [LabelTable.get?_push, List.map_cons, List.mem_cons]
    split
    · next hi => simp [hi]
    · next hi => simp [hi, h.pending i]
  · rw [List.map_cons, List.pairwise_cons]
    exact ⟨fun i hi => h.label_lt hi, h.sorted⟩

/-- **The innermost exit is a pending label, and it lies where the stack is empty.** -/
theorem Writing.resolveExit (h : Writing B s f []) {x : Exit} {xs : List Exit}
    (hx : s.exits = x :: xs) :
    ∃ labels, f.labels.resolve x.label f.code.size = .ok labels ∧
      labels.size = f.labels.size ∧
      Writing B
        { s with
          program := s.program.modifyFunction (fun _ => { f with labels := labels }) s.target
          exits := xs }
        { f with labels := labels } [] := by
  have hpending : f.labels.get? x.label = some .pending := (h.pending _).2 (by simp [hx])
  obtain ⟨labels, hlabels⟩ : ∃ labels, f.labels.resolve x.label f.code.size = .ok labels := by
    simp [LabelTable.resolve, hpending]
  have hget := LabelTable.get?_of_resolve hlabels
  have hsorted := h.sorted
  rw [hx, List.map_cons, List.pairwise_cons] at hsorted
  refine ⟨labels, hlabels, ?_, h.put rfl rfl ?_ ?_ ?_ hsorted.2 rfl rfl rfl rfl⟩
  · simp only [LabelTable.resolve, hpending, Except.ok.injEq] at hlabels
    simp [LabelTable.size, ← hlabels]
  · intro i offset hi
    rw [hget, if_neg, hi]
    rintro rfl
    simp [hpending] at hi
  · intro i offset hi
    rw [hget] at hi
    split at hi
    · cases hi
      exact h.code.restsAt
    · exact h.known i offset hi
  · intro i
    rw [hget]
    split
    · next hi =>
      refine ⟨by simp, fun hmem => ?_⟩
      have := hsorted.1 i hmem
      omega
    · next hi => simp [h.pending i, hx, hi]

/-! ## Functions -/

/-- Without open blocks nothing is missing from the function. -/
theorem Writing.settled (h : Writing B s f []) (hexits : s.exits = []) : f.Settled B where
  code := h.code
  labels i l hl := by
    cases l with
    | known offset => exact ⟨offset, rfl, h.known i offset hl⟩
    | pending =>
      have hmem := (h.pending i).1 hl
      simp [hexits] at hmem

/-- Nothing is open in a program whose functions are all settled. -/
theorem writing_of_settled (hf : s.program.function? s.target = some f)
    (hset : ∀ i g, s.program.function? i = some g → g.Settled B) (hexits : s.exits = [])
    (hanchored : s.program.main.Anchored B s.checkpoint)
    (hnames : s.program.main.name = "(main)" ∧ s.program.answer.name = "(read)")
    (hoperators : s.operators = []) : Writing B s f [] where
  function := hf
  code := (hset _ f hf).code
  known i offset hi := by
    obtain ⟨_, hl, hrest⟩ := (hset _ f hf).labels i _ hi
    cases hl
    exact hrest
  pending i := by
    rw [hexits]
    refine ⟨fun hi => ?_, nofun⟩
    obtain ⟨_, hl, -⟩ := (hset _ f hf).labels i _ hi
    cases hl
  sorted := by
    rw [hexits]
    exact .nil
  others i g _ := hset i g
  anchored := hanchored
  names := hnames
  operators := hoperators

/-- **Another function receives code.** -/
theorem Writing.retarget (h : Writing B s f []) (hexits : s.exits = []) {id : Nat}
    (hg : s.program.function? id = some g) : Writing B { s with target := id } g [] := by
  refine writing_of_settled hg (fun i k hk => ?_) hexits h.anchored h.names h.operators
  by_cases hi : i = s.target
  · subst hi
    cases h.function.symm.trans hk
    exact h.settled hexits
  · exact h.others i k hi hk

/-- **A function begins anew.** -/
theorem Writing.restart (h : Writing B s f stack) (hexits : s.exits = [])
    (hmain : s.target ≠ Program.mainId) (hcode : g.code = {}) (hlabels : g.labels = {})
    (hname : g.name = f.name) :
    Writing B { s with program := s.program.modifyFunction (fun _ => g) s.target } g [] := by
  refine writing_of_settled ?_ (fun i k hk => ?_) hexits ?_ ?_ h.operators
  · exact Program.function?_put h.function hname
  · rw [Program.function?_modifyFunction] at hk
    split at hk
    · obtain ⟨_, -, rfl⟩ := Option.map_eq_some_iff.1 hk
      exact Function.settled_of_empty hcode hlabels
    · next hi => exact h.others i k hi hk
  · rw [Program.main_modifyFunction, if_neg hmain]
    exact h.anchored
  · rw [Program.Grows.put.names_eq.1, Program.Grows.put.names_eq.2]
    exact h.names

end DeskCalc
