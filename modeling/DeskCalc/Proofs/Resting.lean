import DeskCalc.Proofs.Stack
import DeskCalc.Session

/-!
# Functions at rest

Between statements the stack is empty, and only there are labels made. `c.RestsAt B offset` says
that the code `c` has such a place at `offset`. A function is `Settled` when its code ends in one
and each of its labels lies at one. The main code is `Anchored` at a checkpoint if cutting it there
gives a settled function (`Anchored.settled_cut`), whatever was written since.

What is said of the stack holds under a condition `B`, because the number of arguments of a call is
written with at most eight bytes.
-/

namespace DeskCalc

variable {B : Prop}

namespace Code

/-- The code leaves these entries on an empty stack. -/
def Leaves (B : Prop) (c : Code) (stack : List Entry) : Prop :=
  ∃ is, c.Holds is ∧ (B → execute is [] = some stack)

/-- At this offset an instruction starts or the code ends, and the stack is empty there. -/
def RestsAt (B : Prop) (c : Code) (offset : Nat) : Prop :=
  ∃ (d : Code) (is : List Command), d.Leaves B [] ∧ d.Writes is c ∧ d.size = offset

variable {c d : Code} {is : List Command} {stack stack' : List Entry} {offset : Nat}

theorem leaves_empty : empty.Leaves B [] := ⟨[], .empty_nil, fun _ => rfl⟩

theorem Leaves.writes (h : c.Leaves B stack) (hd : c.Writes is d)
    (his : B → execute is stack = some stack') : d.Leaves B stack' := by
  obtain ⟨js, hjs, hrun⟩ := h
  refine ⟨js ++ is, hjs.writes hd, fun hB => ?_⟩
  rw [execute_append, hrun hB]
  exact his hB

theorem Leaves.restsAt (h : c.Leaves B []) : c.RestsAt B c.size := ⟨c, [], h, .nil, rfl⟩

theorem RestsAt.writes (h : c.RestsAt B offset) (hd : c.Writes is d) : d.RestsAt B offset := by
  obtain ⟨e, js, he, hjs, hsize⟩ := h
  exact ⟨e, js ++ is, he, hjs.trans hd, hsize⟩

/-- What stands before a place of rest leaves nothing. -/
theorem RestsAt.split (h : c.RestsAt B offset) :
    ∃ before after, c.instructions = before ++ after ∧
      offset = (after.head?.map (·.offset)).getD c.size ∧ (B → simulate before [] = some []) := by
  obtain ⟨d, js, ⟨is, his, hrun⟩, hjs, rfl⟩ := h
  have hsize := hjs.size_eq
  refine ⟨located 0 is, located d.size js, ?_, ?_, fun hB => simulate_located (hrun hB) 0⟩
  · rw [(his.writes hjs).instructions_eq, located_append, his.size_eq, Nat.zero_add]
  · cases js with
    | nil => simpa [located] using hsize.symm
    | cons j js => rfl

/-- An instruction starts at a place of rest, or it is the end. -/
theorem RestsAt.boundary (h : c.RestsAt B offset) :
    offset ∈ c.instructions.map (·.offset) ∨ offset = c.size := by
  obtain ⟨d, js, ⟨is, his, -⟩, hjs, rfl⟩ := h
  exact his.boundary hjs

end Code

namespace Function

/-- Nothing is open in the function: its code and its labels rest. -/
structure Settled (B : Prop) (f : Function) : Prop where
  code : f.code.Leaves B []
  labels : ∀ i l, f.labels.get? i = some l → ∃ offset, l = .known offset ∧ f.code.RestsAt B offset

/-- Up to the checkpoint the function is settled. -/
def Anchored (B : Prop) (f : Function) (c : Checkpoint) : Prop :=
  ∃ (d : Code) (is : List Command), d.Leaves B [] ∧ d.Writes is f.code ∧ d.size = c.code ∧
    ∀ i < c.labels, ∃ offset, f.labels.get? i = some (.known offset) ∧ d.RestsAt B offset

variable {f g : Function} {c : Checkpoint}

/-- A function without code. -/
theorem settled_of_empty (hcode : f.code = {}) (hlabels : f.labels = {}) : f.Settled B where
  code := hcode ▸ Code.leaves_empty
  labels i l hl := by simp [hlabels, LabelTable.get?] at hl

theorem Settled.anchored (h : f.Settled B) : f.Anchored B ⟨f.code.size, f.labels.size⟩ := by
  refine ⟨f.code, [], h.code, .nil, rfl, fun i hi => ?_⟩
  have hget : f.labels.get? i = some f.labels.labels[i] := Array.getElem?_eq_getElem hi
  obtain ⟨offset, hl, hrest⟩ := h.labels i _ hget
  exact ⟨offset, hl ▸ hget, hrest⟩

/-- Writing code and making or resolving labels does not touch what lies before the checkpoint. -/
theorem Anchored.mono (h : f.Anchored B c) {is : List Command} (hcode : f.code.Writes is g.code)
    (hlabels : ∀ i offset, f.labels.get? i = some (.known offset) →
      g.labels.get? i = some (.known offset)) : g.Anchored B c := by
  obtain ⟨d, js, hd, hjs, hsize, hknown⟩ := h
  refine ⟨d, js ++ is, hd, hjs.trans hcode, hsize, fun i hi => ?_⟩
  obtain ⟨offset, hl, hrest⟩ := hknown i hi
  exact ⟨offset, hlabels i offset hl, hrest⟩

/-- What the function was at a checkpoint. -/
def cut (f : Function) (c : Checkpoint) : Function :=
  { f with
    code := f.code.truncate c.code
    labels := f.labels.truncate c.labels }

theorem Anchored.code_cut (h : f.Anchored B c) :
    (f.cut c).code.Leaves B [] ∧ (f.cut c).code.size = c.code ∧
      ∀ i < c.labels, ∃ offset, f.labels.get? i = some (.known offset) ∧
        (f.cut c).code.RestsAt B offset := by
  obtain ⟨d, js, ⟨is, his, hrun⟩, hjs, hsize, hknown⟩ := h
  have hcut : (f.cut c).code = d := by
    rw [cut, ← hsize]
    exact his.truncate_eq hjs
  rw [hcut]
  exact ⟨⟨is, his, hrun⟩, hsize, hknown⟩

theorem labels_cut (f : Function) (c : Checkpoint) (i : Nat) :
    (f.cut c).labels.get? i = if i < c.labels then f.labels.get? i else none :=
  LabelTable.get?_truncate _ _ _

/-- **The code up to the checkpoint is a settled function.** -/
theorem Anchored.settled_cut (h : f.Anchored B c) : (f.cut c).Settled B := by
  obtain ⟨hcode, -, hknown⟩ := h.code_cut
  refine ⟨hcode, fun i l hl => ?_⟩
  rw [labels_cut] at hl
  split at hl
  · next hi =>
    obtain ⟨offset, hget, hrest⟩ := hknown i hi
    cases hget.symm.trans hl
    exact ⟨offset, rfl, hrest⟩
  · cases hl

/-- The same checkpoint serves again. -/
theorem Anchored.anchored_cut (h : f.Anchored B c) : (f.cut c).Anchored B c := by
  obtain ⟨hcode, hsize, hknown⟩ := h.code_cut
  refine ⟨_, [], hcode, .nil, hsize, fun i hi => ?_⟩
  rw [labels_cut, if_pos hi]
  exact hknown i hi

end Function

end DeskCalc
