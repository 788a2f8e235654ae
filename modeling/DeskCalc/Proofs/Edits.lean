import DeskCalc.Proofs.Writing
import Mathlib.Data.Finset.Range

/-!
# What a statement changes

A statement works on a `Draft`: the program, the function that receives code, and the labels that
the open blocks keep for their ends and for `continue`, all of it since a checkpoint.
`d.Edits anew named e` says that `e` comes out of `d` by the few changes that statements make: code
is written, labels are made and resolved, locals are declared, and the function that receives code
is ended. A definition may also begin a function anew whose name is one of `anew`. What must hold of
every program follows from what each of these changes keeps.

Some jumps are written before the label they name is made. They name one of the first `named`
labels, so that with `named = 0` every jump names a label that is there.
-/

namespace DeskCalc

/-- What a statement works on. -/
structure Draft where
  program : Program
  target : Nat
  exits : List Exit
  continues : List Nat
  checkpoint : Checkpoint

/-- The draft of a session. -/
def Session.draft (s : Session) : Draft :=
  ⟨s.program, s.target, s.exits, s.continues, s.checkpoint⟩

namespace LabelTable

variable {t u : LabelTable} {index offset : Nat}

/-- Only a pending label can be resolved. -/
theorem get?_eq_of_resolve (h : t.resolve index offset = .ok u) :
    t.get? index = some .pending := by
  rw [resolve] at h
  split at h
  · assumption
  · cases h
  · cases h

theorem size_of_resolve (h : t.resolve index offset = .ok u) : u.size = t.size := by
  rw [resolve] at h
  split at h <;> cases h
  exact Array.size_setIfInBounds

end LabelTable

namespace Draft

/-- The function that receives code. -/
def function? (d : Draft) : Option Function := d.program.function? d.target

/-- A jump may name the label `l`: it is one of the first `named`, or the function that receives code
has it, or an open block keeps it. -/
def Names (d : Draft) (named l : Nat) : Prop :=
  (∃ f, d.function? = some f ∧ l < max named f.labels.size) ∨ l ∈ d.exits.map (·.label) ∨
    l ∈ d.continues

/-- Another function in place of the one that receives code. -/
def put (d : Draft) (f : Function) : Draft :=
  { d with program := d.program.modifyFunction (fun _ => f) d.target }

/-- A definition begins the function `id` anew, where nothing is open. -/
inductive Begins (d : Draft) (anew : String → Prop) : Draft → Prop
  | intro {id : Nat} {f : Function} (hmain : d.target = Program.mainId) (hexits : d.exits = [])
      (hcontinues : d.continues = []) (hid : id ≠ Program.mainId)
      (hf : d.program.function? id = some f) (hnew : anew f.name) (isVoid : Bool) :
      Begins d anew { d with
        program := d.program.modifyFunction (fun _ => { f.clear with isVoid := isVoid }) id
        target := id }

/-- The second draft comes out of `d` by changes that statements make. Jumps may name labels that are
not there if they are among the first ones. -/
inductive Edits (d : Draft) (anew : String → Prop) : Nat → Draft → Prop
  | refl : Edits d anew 0 d
  /-- Other labels may be named from here on. -/
  | name {n m : Nat} {e : Draft} {f : Function} (h : Edits d anew n e)
      (hf : e.function? = some f) (hm : n ≤ max m f.labels.size) : Edits d anew m e
  /-- Names are entered in the tables, and code is written. -/
  | write {n : Nat} {e : Draft} {is : List Command} {P : Program} (h : Edits d anew n e)
      (hP : e.program.Extends e.target is P)
      (hl : ∀ c ∈ is, c.1.isJump = true → ∀ l ∈ c.2, e.Names n l) :
      Edits d anew n { e with program := P }
  /-- A label is made at the end of the code. -/
  | label {n : Nat} {e : Draft} {f : Function} (h : Edits d anew n e)
      (hf : e.function? = some f) :
      Edits d anew n (e.put { f with labels := f.labels.push (.known f.code.size) })
  /-- A block opens, and the label at its end is made. -/
  | openExit {n : Nat} {e : Draft} {f : Function} (h : Edits d anew n e)
      (hf : e.function? = some f) (isLoop : Bool) :
      Edits d anew n { e.put { f with labels := f.labels.push .pending } with
        exits := ⟨f.labels.size, isLoop⟩ :: e.exits }
  /-- A block ends, and the label at its end is resolved. -/
  | resolveExit {n : Nat} {e : Draft} {f : Function} {x : Exit} {xs : List Exit}
      {labels : LabelTable} (h : Edits d anew n e) (hf : e.function? = some f)
      (hx : e.exits = x :: xs) (hl : f.labels.resolve x.label f.code.size = .ok labels) :
      Edits d anew n { e.put { f with labels := labels } with exits := xs }
  /-- A loop begins, and `continue` jumps to a label that has been made. -/
  | pushContinue {n : Nat} {e : Draft} {f : Function} {l : Nat} (h : Edits d anew n e)
      (hf : e.function? = some f) (hl : l < f.labels.size) :
      Edits d anew n { e with continues := l :: e.continues }
  /-- A loop ends. -/
  | popContinue {n : Nat} {e : Draft} {f : Function} {l : Nat} {ls : List Nat}
      (h : Edits d anew n e) (hf : e.function? = some f) (hl : e.continues = l :: ls) :
      Edits d anew n { e with continues := ls }
  /-- A local is declared, or the function counts as defined. -/
  | sign {n : Nat} {e : Draft} {f g : Function} (h : Edits d anew n e)
      (hf : e.function? = some f) (hname : g.name = f.name) (hcode : g.code = f.code)
      (hlabels : g.labels = f.labels) (hvoid : g.isVoid = f.isVoid)
      (hdefined : f.defined = true → g.defined = true) : Edits d anew n (e.put g)
  /-- The function that receives code returns, and the main code goes on. -/
  | finish {e : Draft} {f : Function} {P : Program} (h : Edits d anew 0 e)
      (hf : e.function? = some f) (hdefined : f.defined = true) (hexits : e.exits = [])
      (hcontinues : e.continues = [])
      (hP : e.program.Extends e.target [(if f.isVoid then .retVoid else .ret0, [])] P) :
      Edits d anew 0 { e with program := P, target := Program.mainId }
  | begins {e e' : Draft} (h : Edits d anew 0 e) (he : e.Begins anew e') : Edits d anew 0 e'

variable {d e : Draft} {anew : String → Prop} {n m : Nat} {f : Function}

theorem function?_put {g : Function} (hf : d.function? = some f) (hname : g.name = f.name) :
    (d.put g).function? = some g :=
  Program.function?_put hf hname

/-- The checkpoint stays where it is. -/
theorem Edits.checkpoint_eq (h : d.Edits anew n e) : e.checkpoint = d.checkpoint := by
  induction h with
  | refl => rfl
  | name _ _ _ ih | write _ _ _ ih | label _ _ ih | openExit _ _ _ ih | resolveExit _ _ _ _ ih
  | pushContinue _ _ _ ih | popContinue _ _ _ ih | sign _ _ _ _ _ _ _ ih
  | finish _ _ _ _ _ _ ih => exact ih
  | begins _ he ih =>
    cases he
    exact ih

/-! ## What the changes come to -/

/-- The function that receives code stays the same; it gets code and labels, and the labels that
had an offset keep it. Other functions stay as they are, and new ones are empty. -/
structure Reworks (d e : Draft) : Prop where
  target : e.target = d.target
  grows : d.program.Grows e.program
  function : ∃ f g is, d.function? = some f ∧ e.function? = some g ∧ f.code.Writes is g.code ∧
    (∀ i offset, f.labels.get? i = some (.known offset) →
      g.labels.get? i = some (.known offset)) ∧
    f.labels.size ≤ g.labels.size ∧ g.isVoid = f.isVoid ∧ (f.defined = true → g.defined = true)
  others : ∀ i g, i ≠ d.target → d.program.function? i = some g → e.program.function? i = some g
  fresh : ∀ i g, d.program.function? i = none → e.program.function? i = some g →
    g = { name := g.name }

/-- The function that receives code returns, and the main code goes on. -/
def Finishes (d e : Draft) : Prop :=
  ∃ f P, d.function? = some f ∧ f.defined = true ∧
    d.program.Extends d.target [(if f.isVoid then .retVoid else .ret0, [])] P ∧
    e = { d with program := P, target := Program.mainId }

theorem Reworks.of_extends {is : List Command} {P : Program} {xs : List Exit} {ls : List Nat}
    (h : d.program.Extends d.target is P) :
    d.Reworks { d with program := P, exits := xs, continues := ls } where
  target := rfl
  grows := h.grows
  function := by
    obtain ⟨f, c, hf, hc, hP⟩ := h.written
    exact ⟨f, _, is, hf, hP, hc, fun _ _ => id, Nat.le_refl _, rfl, id⟩
  others := h.others
  fresh := h.fresh

theorem Reworks.of_put {g : Function} {xs : List Exit} {ls : List Nat}
    (hf : d.function? = some f) (hname : g.name = f.name) (hcode : g.code = f.code)
    (hknown : ∀ i offset, f.labels.get? i = some (.known offset) →
      g.labels.get? i = some (.known offset))
    (hsize : f.labels.size ≤ g.labels.size) (hvoid : g.isVoid = f.isVoid)
    (hdefined : f.defined = true → g.defined = true) :
    d.Reworks { d.put g with exits := xs, continues := ls } where
  target := rfl
  grows := .put
  function := ⟨f, g, [], hf, function?_put hf hname, hcode ▸ .nil, hknown, hsize, hvoid, hdefined⟩
  others i k hi hk := by
    show (d.program.modifyFunction _ d.target).function? i = _
    rw [Program.function?_modifyFunction, if_neg hi]
    exact hk
  fresh i k hi hk := by
    have hk' : (d.program.modifyFunction (fun _ => g) d.target).function? i = some k := hk
    rw [Program.function?_modifyFunction, hi] at hk'
    split at hk' <;> cases hk'

/-- **What changes come to**, one after the other. -/
theorem Edits.steps (h : d.Edits anew n e) :
    Relation.ReflTransGen (fun a b => Reworks a b ∨ Finishes a b ∨ Begins a anew b) d e := by
  induction h with
  | refl => exact .refl
  | name _ _ _ ih => exact ih
  | write _ hP _ ih => exact ih.tail (.inl (.of_extends hP))
  | label _ hf ih =>
    refine ih.tail (.inl (.of_put hf rfl rfl (fun _ _ => LabelTable.get?_push_of_get?) ?_ rfl id))
    exact LabelTable.size_push _ _ ▸ Nat.le_succ _
  | openExit _ hf isLoop ih =>
    refine ih.tail (.inl (.of_put hf rfl rfl (fun _ _ => LabelTable.get?_push_of_get?) ?_ rfl id))
    exact LabelTable.size_push _ _ ▸ Nat.le_succ _
  | @resolveExit _ _ f x _ labels _ hf hx hl ih =>
    have hget := LabelTable.get?_of_resolve hl
    have hpending := LabelTable.get?_eq_of_resolve hl
    refine ih.tail (.inl (.of_put hf rfl rfl (fun i offset hi => ?_) ?_ rfl id))
    · rw [hget, if_neg, hi]
      rintro rfl
      cases hpending.symm.trans hi
    · exact (LabelTable.size_of_resolve hl).ge
  | pushContinue _ hf _ ih => exact ih.tail (.inl (.of_extends (.refl hf)))
  | popContinue _ hf _ ih => exact ih.tail (.inl (.of_extends (.refl hf)))
  | sign _ hf hname hcode hlabels hvoid hdefined ih =>
    refine ih.tail (.inl (.of_put hf hname hcode ?_ ?_ hvoid hdefined))
    · rw [hlabels]
      exact fun _ _ => id
    · rw [hlabels]
  | finish _ hf hdefined _ _ hP ih => exact ih.tail (.inr (.inl ⟨_, _, hf, hdefined, hP, rfl⟩))
  | begins _ he ih => exact ih.tail (.inr (.inr he))

/-- Code goes to the main program, or to a function that counts as defined. -/
def Declared (d : Draft) : Prop :=
  d.target ≠ Program.mainId → ∃ f, d.function? = some f ∧ f.defined = true

end Draft

/-! ## Reading tokens and writing code -/

theorem Program.Denotes.operands_of_isJump {P : Program} {s : Symbolic} {i : Command}
    (h : P.Denotes s i) (hjump : i.1.isJump = true) : i.2 = [] := by
  cases s with
  | plain op =>
    cases h
    rfl
  | call count name =>
    obtain ⟨k, f, rfl, -⟩ := h
    cases hjump
  | number | string | var | elem | array =>
    obtain ⟨k, rfl, -⟩ := h
    cases hjump

/-- Symbolic code has no jump that names a label. -/
theorem Program.operands_of_denotes {P : Program} {code : List Symbolic} {is : List Command}
    (h : List.Forall₂ P.Denotes code is) : ∀ c ∈ is, c.1.isJump = true → c.2 = [] := by
  induction h with
  | nil => simp
  | cons hs _ ih => exact List.forall_mem_cons.2 ⟨hs.operands_of_isJump, ih⟩

namespace Pass

variable {p q : Pass} {u : List Token} {is : List Command} {d : Draft}
  {anew : String → Prop} {n : Nat}

theorem Progress.draft_eq (h : p.Progress u is q) :
    q.draft = { p.draft with program := q.program } := by
  simp only [Session.draft, h.target, h.exits, h.continues, h.checkpoint]

/-- Reading tokens and writing code, where labels may have been named before it. -/
theorem Progress.edits_of (hp : d.Edits anew n p.draft) (h : p.Progress u is q)
    (hl : ∀ c ∈ is, c.1.isJump = true → ∀ l ∈ c.2, p.draft.Names n l) :
    d.Edits anew n q.draft := by
  rw [h.draft_eq]
  exact hp.write h.program hl

/-- However a part of the compiler has failed that reads tokens and writes code, some number of
labels is enough for the jumps it has written. -/
theorem Refused.edits_of {e : Stop} (hp : d.Edits anew n p.draft) (h : p.Refused e q) :
    ∃ m, d.Edits anew m q.draft := by
  obtain ⟨-, u, is, his⟩ := h
  obtain ⟨f, -, hf, -⟩ := his.program.written
  obtain ⟨m, hm⟩ := (is.flatMap (·.2)).toFinset.exists_nat_subset_range
  refine ⟨max n m, his.edits_of (hp.name hf (by omega)) fun c hc _ l hl => .inl ⟨f, hf, ?_⟩⟩
  have hlt : l ∈ Finset.range m := hm (by simpa using ⟨c.1, c.2, hc, hl⟩)
  rw [Finset.mem_range] at hlt
  omega

end Pass

end DeskCalc
