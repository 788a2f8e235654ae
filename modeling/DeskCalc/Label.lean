/-!
# Labels

A jump names a label of its function. A label is made at a known offset, or it is made pending and
resolved once, when the code it guards has ended.
-/

namespace DeskCalc

/-- The target of jumps. -/
inductive Label
  | known (offset : Nat)
  | pending
deriving DecidableEq, Repr

/-- A label was used in a way that the table does not allow. -/
inductive LabelFault
  | missing (index : Nat)
  | resolved (index target : Nat)
  | unresolved (index : Nat)
deriving DecidableEq, Repr

/-- The text of a fault. -/
def LabelFault.message : LabelFault → String
  | missing index => s!"label {index} does not exist"
  | resolved index target => s!"label {index} already resolved to {target}"
  | unresolved index => s!"label {index} read before it was resolved"

/-- The labels of a function, in the order they were made. -/
structure LabelTable where
  labels : Array Label := #[]
deriving DecidableEq, Repr

namespace LabelTable

/-- No labels. -/
def empty : LabelTable := {}

/-- The number of labels; the next one made gets it as its index. -/
def size (t : LabelTable) : Nat := t.labels.size

/-- Make a label. -/
def push (t : LabelTable) (l : Label) : LabelTable := ⟨t.labels.push l⟩

/-- The label with an index. -/
def get? (t : LabelTable) (index : Nat) : Option Label := t.labels[index]?

/-- The label is there and waits to be resolved. -/
def isPending (t : LabelTable) (index : Nat) : Bool := t.get? index == some .pending

/-- Give a pending label its offset. -/
def resolve (t : LabelTable) (index offset : Nat) : Except LabelFault LabelTable :=
  match t.get? index with
  | some .pending => .ok ⟨t.labels.setIfInBounds index (.known offset)⟩
  | some (.known target) => .error (.resolved index target)
  | none => .error (.missing index)

/-- The offset of a label. -/
def target (t : LabelTable) (index : Nat) : Except LabelFault Nat :=
  match t.get? index with
  | some (.known offset) => .ok offset
  | some .pending => .error (.unresolved index)
  | none => .error (.missing index)

/-- Keep the first `len` labels. -/
def truncate (t : LabelTable) (len : Nat) : LabelTable := ⟨t.labels.take len⟩

@[simp] theorem size_push (t : LabelTable) (l : Label) : (t.push l).size = t.size + 1 := by
  simp [size, push]

theorem get?_push (t : LabelTable) (l : Label) (index : Nat) :
    (t.push l).get? index = if index = t.size then some l else t.get? index := by
  exact Array.getElem?_push

theorem get?_truncate (t : LabelTable) (len index : Nat) :
    (t.truncate len).get? index = if index < len then t.get? index else none := by
  simp only [get?, truncate, Array.getElem?_extract, Nat.zero_add, Nat.sub_zero]
  by_cases hindex : index < t.labels.size
  · have hmin : index < min len t.labels.size ↔ index < len := by omega
    simp only [hmin]
  · rw [Array.getElem?_eq_none (Nat.le_of_not_lt hindex), ite_self, ite_self]

/-- Resolving gives the label its offset and changes no other. -/
theorem get?_of_resolve {t u : LabelTable} {index offset : Nat}
    (h : t.resolve index offset = .ok u) (other : Nat) :
    u.get? other = if other = index then some (.known offset) else t.get? other := by
  unfold resolve at h
  split at h
  · next hpending =>
    cases h
    have hlt : index < t.labels.size := (Array.getElem?_eq_some_iff.1 hpending).1
    simp [get?, Array.getElem?_setIfInBounds, hlt, eq_comm]
  · cases h
  · cases h

end LabelTable

end DeskCalc
