/-!
# Tables of distinct entries

A program refers to names and constants by their index. A `Table` lists each entry once, in the
order of first appearance. Beside the list it keeps an `Index`, a finite map from which an entry's
place is read without going through the list. The two are updated one after the other, so that
they have to be shown to agree (`Index.Lists`).
-/

namespace DeskCalc

/-- A finite map from keys to places. Of several pairs with the same key the first one counts. -/
structure Index (κ : Type) where
  pairs : List (κ × Nat) := []
deriving DecidableEq, Repr

namespace Index

variable {κ : Type} [DecidableEq κ] {m : Index κ} {keys : List κ} {k : κ}

/-- The place of a key. -/
def get? (m : Index κ) (k : κ) : Option Nat := m.pairs.lookup k

/-- From now on `place` is the place of the key. -/
def insert (m : Index κ) (k : κ) (place : Nat) : Index κ := ⟨(k, place) :: m.pairs⟩

theorem get?_insert (m : Index κ) (k : κ) (place : Nat) (a : κ) :
    (m.insert k place).get? a = if a = k then some place else m.get? a := by
  have hbeq : (a == k) = decide (a = k) := rfl
  by_cases h : a = k <;> simp [get?, insert, List.lookup_cons, hbeq, h]

/-- The map gives the places of the keys in a list. -/
def Lists (m : Index κ) (keys : List κ) : Prop := ∀ k i, m.get? k = some i ↔ keys[i]? = some k

theorem lists_nil : ({} : Index κ).Lists [] := by
  intro k i
  simp [get?]

theorem Lists.get?_eq_none (h : m.Lists keys) : m.get? k = none ↔ k ∉ keys := by
  rw [List.mem_iff_getElem?, Option.eq_none_iff_forall_ne_some, not_exists]
  exact forall_congr' fun i => not_congr (h k i)

/-- A new key is put at the end. -/
theorem Lists.insert (h : m.Lists keys) (hnew : m.get? k = none) :
    (m.insert k keys.length).Lists (keys ++ [k]) := by
  intro a i
  have hk : k ∉ keys := h.get?_eq_none.1 hnew
  rw [get?_insert]
  split
  · next ha =>
    subst ha
    constructor
    · intro hi
      cases hi
      simp
    · intro hi
      rw [List.getElem?_append] at hi
      split at hi
      · exact absurd (List.mem_of_getElem? hi) hk
      · grind
  · next ha =>
    rw [h a i, List.getElem?_append]
    split
    · exact Iff.rfl
    · grind

end Index

/-- Distinct entries, in the order of their first appearance, and where they stand. -/
structure Table (α : Type) where
  entries : Array α := #[]
  index : Index α := {}
deriving DecidableEq, Repr

namespace Table

variable {α : Type}

/-- The number of entries. -/
def size (t : Table α) : Nat := t.entries.size

/-- The entry with an index. -/
def get? (t : Table α) (index : Nat) : Option α := t.entries[index]?

/-- Add an entry at the end. -/
def push (t : Table α) (a : α) : Table α where
  entries := t.entries.push a
  index := t.index.insert a t.size

@[simp] theorem size_push (t : Table α) (a : α) : (t.push a).size = t.size + 1 := by
  simp [size, push]

theorem get?_push (t : Table α) (a : α) (index : Nat) :
    (t.push a).get? index = if index = t.size then some a else t.get? index := by
  grind [get?, push, size]

variable [DecidableEq α]

/-- The index of an entry. -/
def find? (t : Table α) (a : α) : Option Nat := t.index.get? a

/-- The index of `a`, which is added if it is new and there are fewer than `max` entries. -/
def intern? (t : Table α) (a : α) (max : Nat) : Option (Nat × Table α) :=
  match t.find? a with
  | some index => some (index, t)
  | none => if t.size < max then some (t.size, t.push a) else none

/-- The index knows the entries. -/
def Agrees (t : Table α) : Prop := t.index.Lists t.entries.toList

variable {t u : Table α} {a : α} {max index : Nat}

theorem agrees_empty : ({} : Table α).Agrees := Index.lists_nil

theorem Agrees.push (h : t.Agrees) (hnew : t.find? a = none) : (t.push a).Agrees := by
  rw [Agrees, Table.push, Array.toList_push, size, ← Array.length_toList]
  exact Index.Lists.insert h hnew

/-- An entry is found, added at the end, or refused because the table is full. -/
theorem intern?_cases (t : Table α) (a : α) (max : Nat) :
    (∃ index, t.find? a = some index ∧ t.intern? a max = some (index, t)) ∨
      (t.find? a = none ∧ t.size < max ∧ t.intern? a max = some (t.size, t.push a)) ∨
      (t.find? a = none ∧ max ≤ t.size ∧ t.intern? a max = none) := by
  unfold intern?
  grind

theorem Agrees.intern? (h : t.Agrees) (hu : t.intern? a max = some (index, u)) : u.Agrees := by
  rcases intern?_cases t a max with ⟨_, -, heq⟩ | ⟨hnew, -, heq⟩ | ⟨-, -, heq⟩ <;>
    cases heq.symm.trans hu
  · exact h
  · exact h.push hnew

end Table

end DeskCalc
