import DeskCalc.Program
import Mathlib.Data.List.Nodup

/-!
# The tables of a program

Code refers to functions, variables, arrays and constants by their index, so that an entry must keep
its index for ever. Each table is a list with an index beside it. `Store.ask` asks for the index of
a key, which is entered if it is new. The four kinds of keys are entered in the same way, each in a
table of its own (`Store.enter_cases`). The tables that were asked for any keys are consistent
(`Store.asked_consistent`).
-/

namespace DeskCalc

/-- The tables of a program. -/
inductive Shelf
  | functions
  | vars
  | arrays
  | constants
deriving DecidableEq, Repr

/-- What is entered into a table. -/
inductive TableEntry
  | var (name : String)
  | array (name : String)
  | constant (c : Constant)
  | function (name : String)
deriving DecidableEq, Repr

namespace TableEntry

/-- The table it belongs to. -/
def shelf : TableEntry → Shelf
  | function _ => .functions
  | var _ => .vars
  | array _ => .arrays
  | constant _ => .constants

/-- The complaint that there is no room for it. -/
def shortage (span : Span) : TableEntry → Diagnostic
  | function name => ⟨.tooManyFunctions, span, some name⟩
  | var name => ⟨.tooManyVariables, span, some name⟩
  | array name => ⟨.tooManyArrays, span, some name⟩
  | constant c => ⟨.tooManyConstants, span, some c.text⟩

end TableEntry

/-- How many entries a table may have. The two functions that are always there need no room. -/
def Limits.room (l : Limits) : Shelf → Nat
  | .functions => max 2 l.functions
  | .vars => l.vars
  | .arrays => l.arrays
  | .constants => l.constants

namespace Store

/-- The entries of a table in the order of their indices. -/
def entries (s : Store) : Shelf → List TableEntry
  | .functions => s.functions.map fun f => .function f.name
  | .vars => s.vars.entries.toList.map .var
  | .arrays => s.arrays.entries.toList.map .array
  | .constants => s.constants.entries.toList.map .constant

/-- The index of a key. -/
def lookup? (s : Store) : TableEntry → Option Nat
  | .function name => s.findFunction? name
  | .var name => s.vars.find? name
  | .array name => s.arrays.find? name
  | .constant c => s.constants.find? c

/-- The index of a key, which is entered if it is new. -/
def enter (s : Store) (span : Span) : TableEntry → Except Diagnostic (Nat × Store)
  | .function name => s.internFunction name span
  | .var name => s.internVar name span
  | .array name => s.internArray name span
  | .constant c => s.internConstant c span

/-- Ask for the index of a key. Where the answer is an error, the tables stay as they are. -/
def ask (s : Store) (k : TableEntry) (span : Span) : Except Diagnostic Nat × Store :=
  match s.enter span k with
  | .ok (index, t) => (.ok index, t)
  | .error d => (.error d, s)

/-- The tables after they were asked for some keys. -/
def asked (s : Store) (calls : List (TableEntry × Span)) : Store :=
  calls.foldl (fun s call => (s.ask call.1 call.2).2) s

/-! ## One way of entering -/

/-- Add a key at the end of its table. -/
def push (s : Store) : TableEntry → Store
  | .function name => s.pushFunction name
  | .var name => { s with vars := s.vars.push name }
  | .array name => { s with arrays := s.arrays.push name }
  | .constant c => { s with constants := s.constants.push c }

variable {s t : Store} {k : TableEntry} {span : Span} {index : Nat} {limits : Limits}

theorem entries_push (s : Store) (k : TableEntry) (shelf : Shelf) :
    (s.push k).entries shelf =
      if shelf = k.shelf then s.entries shelf ++ [k] else s.entries shelf := by
  cases k <;> cases shelf <;>
    simp [push, pushFunction, entries, TableEntry.shelf, functions, Table.push]

theorem limits_push (s : Store) (k : TableEntry) : (s.push k).limits = s.limits := by
  cases k <;> rfl

/-- The number of entries of a table. -/
def count (s : Store) : Shelf → Nat
  | .functions => s.functions.length
  | .vars => s.vars.size
  | .arrays => s.arrays.size
  | .constants => s.constants.size

theorem length_entries (s : Store) (shelf : Shelf) : (s.entries shelf).length = s.count shelf := by
  cases shelf <;> simp [entries, count, Table.size]

/-- **All keys are entered alike**: one that is there keeps its index, one that is new gets the next
index of its table, and without room it is refused. -/
theorem enter_cases (s : Store) (k : TableEntry) (span : Span) :
    (∃ index, s.lookup? k = some index ∧ s.enter span k = .ok (index, s)) ∨
      (s.lookup? k = none ∧ s.count k.shelf < s.limits.room k.shelf ∧
        s.enter span k = .ok (s.count k.shelf, s.push k)) ∨
      (s.lookup? k = none ∧ s.limits.room k.shelf ≤ s.count k.shelf ∧
        s.enter span k = .error (k.shortage span)) := by
  cases k with
  | function name =>
    have hroom : s.limits.room .functions = max 2 s.limits.functions := rfl
    have htwo : 2 ≤ s.functions.length := by simp [functions]
    simp only [lookup?, enter, internFunction, count, TableEntry.shelf, push, TableEntry.shortage]
    cases s.findFunction? name with
    | some id => exact .inl ⟨id, rfl, rfl⟩
    | none =>
      by_cases hlt : s.functions.length < s.limits.functions
      · exact .inr (.inl ⟨rfl, by omega, by simp [hlt]⟩)
      · exact .inr (.inr ⟨rfl, by omega, by simp [hlt]⟩)
  | var name =>
    refine (s.vars.intern?_cases name s.limits.vars).imp ?_ (.imp ?_ ?_)
    · rintro ⟨i, hfind, h⟩
      exact ⟨i, hfind, by simp only [enter, internVar, h]⟩
    all_goals
      rintro ⟨hfind, hroom, h⟩
      exact ⟨hfind, hroom, by simp only [enter, internVar, h]; rfl⟩
  | array name =>
    refine (s.arrays.intern?_cases name s.limits.arrays).imp ?_ (.imp ?_ ?_)
    · rintro ⟨i, hfind, h⟩
      exact ⟨i, hfind, by simp only [enter, internArray, h]⟩
    all_goals
      rintro ⟨hfind, hroom, h⟩
      exact ⟨hfind, hroom, by simp only [enter, internArray, h]; rfl⟩
  | constant c =>
    refine (s.constants.intern?_cases c s.limits.constants).imp ?_ (.imp ?_ ?_)
    · rintro ⟨i, hfind, h⟩
      exact ⟨i, hfind, by simp only [enter, internConstant, h]⟩
    all_goals
      rintro ⟨hfind, hroom, h⟩
      exact ⟨hfind, hroom, by simp only [enter, internConstant, h]; rfl⟩

/-! ## Consistency -/

/-- The entries of each table are distinct and within its limit, and looking a key up in its index
gives the place it has in the list. -/
structure Consistent (s : Store) (limits : Limits) : Prop where
  distinct : ∀ shelf, (s.entries shelf).Nodup
  bounded : ∀ shelf, (s.entries shelf).length ≤ limits.room shelf
  lookup : ∀ k index, s.lookup? k = some index ↔ (s.entries k.shelf)[index]? = some k

theorem Agrees.lookup (h : s.Agrees) (k : TableEntry) (index : Nat) :
    s.lookup? k = some index ↔ (s.entries k.shelf)[index]? = some k := by
  cases k with
  | function name =>
    simpa [entries, TableEntry.shelf, lookup?, findFunction?] using h.functions name index
  | var name => simpa [entries, TableEntry.shelf, lookup?, Table.find?] using h.vars name index
  | array name => simpa [entries, TableEntry.shelf, lookup?, Table.find?] using h.arrays name index
  | constant c => simpa [entries, TableEntry.shelf, lookup?, Table.find?] using h.constants c index

theorem Agrees.lookup_eq_none (h : s.Agrees) : s.lookup? k = none ↔ k ∉ s.entries k.shelf := by
  rw [List.mem_iff_getElem?, Option.eq_none_iff_forall_ne_some, not_exists]
  exact forall_congr' fun i => not_congr (h.lookup k i)

theorem shelf_of_mem {shelf : Shelf} (h : k ∈ s.entries shelf) : k.shelf = shelf := by
  cases shelf <;> obtain ⟨_, -, rfl⟩ := List.mem_map.1 h <;> rfl

/-- A key has only one place. -/
theorem Agrees.nodup (h : s.Agrees) (shelf : Shelf) : (s.entries shelf).Nodup := by
  refine List.pairwise_iff_getElem.2 fun i j hi hj hij hsame => Nat.ne_of_lt hij ?_
  have hshelf := shelf_of_mem (List.getElem_mem hi)
  have hi' := (h.lookup _ i).2 (by rw [hshelf, List.getElem?_eq_getElem hi])
  have hj' := (h.lookup _ j).2 (by rw [hshelf, List.getElem?_eq_getElem hj, hsame])
  exact Option.some.inj (hi'.symm.trans hj')

theorem Agrees.enter (h : s.Agrees) (ht : s.enter span k = .ok (index, t)) : t.Agrees := by
  cases k with
  | function name => exact h.internFunction ht
  | var name => exact h.internVar ht
  | array name => exact h.internArray ht
  | constant c => exact h.internConstant ht

/-- The indexes agree with the lists, and these are within their limits. -/
structure InStep (s : Store) (limits : Limits) : Prop where
  agrees : s.Agrees
  limits_eq : s.limits = limits
  bounded : ∀ shelf, (s.entries shelf).length ≤ limits.room shelf

theorem inStep_new (limits : Limits) : (new limits).InStep limits where
  agrees := agrees_new limits
  limits_eq := rfl
  bounded shelf := by
    cases shelf with
    | functions => exact Nat.le_max_left 2 limits.functions
    | _ => exact Nat.zero_le _

theorem InStep.consistent (h : s.InStep limits) : s.Consistent limits :=
  ⟨h.agrees.nodup, h.bounded, h.agrees.lookup⟩

/-- What a call does: it finds the key, adds it, or does nothing for want of room. -/
theorem ask_cases (s : Store) (k : TableEntry) (span : Span) :
    (∃ index, s.lookup? k = some index ∧ s.ask k span = (.ok index, s)) ∨
      (s.lookup? k = none ∧ s.count k.shelf < s.limits.room k.shelf ∧
        s.ask k span = (.ok (s.count k.shelf), s.push k)) ∨
      (s.lookup? k = none ∧ s.limits.room k.shelf ≤ s.count k.shelf ∧
        s.ask k span = (.error (k.shortage span), s)) := by
  refine (enter_cases s k span).imp ?_ (.imp ?_ ?_)
  · rintro ⟨i, hlookup, h⟩
    exact ⟨i, hlookup, by rw [ask, h]⟩
  all_goals
    rintro ⟨hlookup, hroom, h⟩
    exact ⟨hlookup, hroom, by rw [ask, h]⟩

/-- Exactly a new key for which there is room is added, at the end of its table. -/
theorem InStep.entries_ask (h : s.InStep limits) (k : TableEntry) (span : Span) (shelf : Shelf) :
    (s.ask k span).2.entries shelf = s.entries shelf ++
      if shelf = k.shelf ∧ k ∉ s.entries shelf ∧ (s.entries shelf).length < limits.room shelf
      then [k] else [] := by
  have hnone := h.agrees.lookup_eq_none (k := k)
  rw [length_entries, ← h.limits_eq]
  rcases ask_cases s k span with ⟨_, hi, hask⟩ | ⟨hnew, hroom, hask⟩ | ⟨hnew, hroom, hask⟩ <;>
    rw [hask]
  · rw [if_neg, List.append_nil]
    rintro ⟨rfl, hk, -⟩
    cases hi.symm.trans (hnone.2 hk)
  · rw [entries_push]
    by_cases hshelf : shelf = k.shelf
    · subst hshelf
      rw [if_pos rfl, if_pos ⟨rfl, hnone.1 hnew, hroom⟩]
    · rw [if_neg hshelf, if_neg (fun hk => hshelf hk.1), List.append_nil]
  · rw [if_neg, List.append_nil]
    rintro ⟨rfl, -, hlt⟩
    exact absurd hlt (Nat.not_lt.2 hroom)

theorem InStep.ask (h : s.InStep limits) (k : TableEntry) (span : Span) :
    (s.ask k span).2.InStep limits where
  agrees := by
    unfold Store.ask
    split
    · next ht => exact h.agrees.enter ht
    · exact h.agrees
  limits_eq := by
    rcases ask_cases s k span with ⟨_, -, hask⟩ | ⟨-, -, hask⟩ | ⟨-, -, hask⟩ <;> rw [hask]
    · exact h.limits_eq
    · exact (limits_push s k).trans h.limits_eq
    · exact h.limits_eq
  bounded shelf := by
    rw [h.entries_ask]
    split
    · next hlt =>
      rw [List.length_append]
      exact hlt.2.2
    · rw [List.append_nil]
      exact h.bounded shelf

theorem InStep.asked (h : s.InStep limits) (calls : List (TableEntry × Span)) :
    (s.asked calls).InStep limits := by
  induction calls generalizing s with
  | nil => exact h
  | cons call calls ih => exact ih (h.ask call.1 call.2)

/-! ## Entries stay where they are -/

theorem InStep.prefix_entries (h : s.InStep limits) (calls : List (TableEntry × Span))
    (shelf : Shelf) : s.entries shelf <+: (s.asked calls).entries shelf := by
  induction calls generalizing s with
  | nil => exact List.prefix_rfl
  | cons call calls ih =>
    refine List.IsPrefix.trans ?_ (ih (h.ask call.1 call.2))
    exact ⟨_, (h.entries_ask call.1 call.2 shelf).symm⟩

/-- An index that was answered is the index of the key. -/
theorem InStep.lookup_of_ask (h : s.InStep limits) (hask : (s.ask k span).1 = .ok index) :
    (s.ask k span).2.lookup? k = some index := by
  rcases ask_cases s k span with ⟨i, hi, heq⟩ | ⟨hnew, hroom, heq⟩ | ⟨-, -, heq⟩
  · rw [heq] at hask ⊢
    cases hask
    exact hi
  · have hnext := (h.ask k span).agrees
    rw [heq] at hask hnext ⊢
    cases hask
    rw [hnext.lookup, entries_push, if_pos rfl, ← length_entries]
    simp
  · rw [heq] at hask
    cases hask

/-- A key keeps its index. -/
theorem InStep.lookup_asked (h : s.InStep limits) (hindex : s.lookup? k = some index)
    (calls : List (TableEntry × Span)) : (s.asked calls).lookup? k = some index := by
  rw [(h.asked calls).agrees.lookup]
  obtain ⟨later, hlater⟩ := h.prefix_entries calls k.shelf
  have hat := (h.agrees.lookup k index).1 hindex
  rw [← hlater, List.getElem?_append_left (List.getElem?_eq_some_iff.1 hat).1, hat]

theorem ask_of_lookup (h : s.lookup? k = some index) : s.ask k span = (.ok index, s) := by
  rcases ask_cases s k span with ⟨i, hi, hask⟩ | ⟨hnone, -⟩ | ⟨hnone, -⟩
  · cases hi.symm.trans h
    exact hask
  · cases hnone.symm.trans h
  · cases hnone.symm.trans h

/-- What is answered to a call: the place of the key, in its index as in its list, which is the
answer for this key for ever, or a refusal exactly if the key is new and its table full. -/
structure Answers (s : Store) (limits : Limits) (k : TableEntry) (span : Span) : Prop where
  answered : ∀ index, (s.ask k span).1 = .ok index →
    (s.ask k span).2.lookup? k = some index ∧
      ((s.ask k span).2.entries k.shelf)[index]? = some k
  refused : ∀ d, (s.ask k span).1 = .error d ↔
    k ∉ s.entries k.shelf ∧ (s.entries k.shelf).length = limits.room k.shelf ∧ d = k.shortage span
  unchanged : ∀ d, (s.ask k span).1 = .error d → (s.ask k span).2 = s
  lasting : ∀ index, (s.ask k span).1 = .ok index → ∀ later span',
    (((s.ask k span).2.asked later).ask k span').1 = .ok index
  /-- Exactly a new key for which there is room is entered, at the end of its table. -/
  entries : ∀ shelf, (s.ask k span).2.entries shelf = s.entries shelf ++
    if shelf = k.shelf ∧ k ∉ s.entries shelf ∧ (s.entries shelf).length < limits.room shelf
    then [k] else []

theorem InStep.answers (h : s.InStep limits) (k : TableEntry) (span : Span) :
    s.Answers limits k span where
  answered index hindex := by
    have hlookup := h.lookup_of_ask hindex
    exact ⟨hlookup, ((h.ask k span).agrees.lookup k index).1 hlookup⟩
  refused d := by
    have hbound := h.bounded k.shelf
    rw [← h.agrees.lookup_eq_none, ← h.limits_eq] at *
    rw [length_entries] at *
    rcases ask_cases s k span with ⟨_, hi, hask⟩ | ⟨-, hroom, hask⟩ | ⟨hnew, hroom, hask⟩
    · simp [hask, hi]
    · simp [hask, Nat.ne_of_lt hroom]
    · simp [hask, hnew, Nat.le_antisymm hbound hroom, eq_comm]
  unchanged d hd := by
    rcases ask_cases s k span with ⟨_, -, hask⟩ | ⟨-, -, hask⟩ | ⟨-, -, hask⟩
    · rw [hask]
    · rw [hask] at hd
      cases hd
    · rw [hask]
  lasting index hindex later span' := by
    rw [ask_of_lookup ((h.ask k span).lookup_asked (h.lookup_of_ask hindex) later)]
  entries := h.entries_ask k span

/-- **The tables of a program stay consistent**, whatever they are asked for and however large they
may grow. -/
theorem asked_consistent (limits : Limits) (calls : List (TableEntry × Span)) :
    ((new limits).asked calls).Consistent limits ∧
      ∀ k span, ((new limits).asked calls).Answers limits k span :=
  have h := (inStep_new limits).asked calls
  ⟨h.consistent, h.answers⟩

end Store

end DeskCalc
