import DeskCalc.Proofs.Code
import DeskCalc.Proofs.Tables
import DeskCalc.Pass

/-!
# Programs that grow

While an expression is compiled the program only grows: names are entered in its tables, functions
that are called get an entry, and one function gets code. `P.Extends id is Q` is this in one
relation, where `is` is what was written to the function `id`. It composes (`Extends.trans`), and
entering a name is a case of it. A name cannot be entered only because its table is full
(`Stop.IsShortage`).
-/

namespace DeskCalc

variable {e : TableEntry}

/-! ## Functions of a program -/

namespace Program

variable {P : Program} {id : Nat} {f : Function}

theorem function?_modifyFunction (P : Program) (f : Function → Function) (id i : Nat) :
    (P.modifyFunction f id).function? i =
      if i = id then (P.function? i).map fun g => (f g).named g.name else P.function? i := by
  rcases id with _ | _ | id <;> rcases i with _ | _ | i <;>
    simp [modifyFunction, function?, Array.getElem?_modify, eq_comm]

/-- A change to a function leaves the tables alone. -/
@[simp] theorem tables_modifyFunction (P : Program) (f : Function → Function) (id : Nat) :
    (P.modifyFunction f id).vars = P.vars ∧ (P.modifyFunction f id).arrays = P.arrays ∧
      (P.modifyFunction f id).constants = P.constants ∧
      (P.modifyFunction f id).limits = P.limits := by
  rcases id with _ | _ | id <;> exact ⟨rfl, rfl, rfl, rfl⟩

/-- A function is found where it was put. -/
theorem function?_put {g : Function} (hf : P.function? id = some f) (hname : g.name = f.name) :
    (P.modifyFunction (fun _ => g) id).function? id = some g := by
  simp [function?_modifyFunction, hf, hname]

theorem hasFunction_eq (P : Program) (id : Nat) : P.hasFunction id = (P.function? id).isSome := by
  rcases id with _ | _ | id
  · simp [hasFunction, function?]
  · simp [hasFunction, function?]
  · by_cases hid : id < P.others.size <;> simp [hasFunction, function?, hid]

theorem getElem?_functions (P : Program) (i : Nat) : P.functions[i]? = P.function? i := by
  rcases i with _ | _ | i <;> simp [Store.functions, function?]

/-- From `P` to `Q` the tables got no shorter, and every function kept its name. -/
structure Grows (P Q : Program) : Prop where
  vars : ∀ i a, P.vars.get? i = some a → Q.vars.get? i = some a
  arrays : ∀ i a, P.arrays.get? i = some a → Q.arrays.get? i = some a
  constants : ∀ i a, P.constants.get? i = some a → Q.constants.get? i = some a
  names : ∀ i f, P.function? i = some f → ∃ g, Q.function? i = some g ∧ g.name = f.name

theorem Grows.refl (P : Program) : P.Grows P :=
  ⟨fun _ _ => id, fun _ _ => id, fun _ _ => id, fun _ f hf => ⟨f, hf, rfl⟩⟩

theorem Grows.trans {Q R : Program} (h : P.Grows Q) (h' : Q.Grows R) : P.Grows R where
  vars i a hi := h'.vars i a (h.vars i a hi)
  arrays i a hi := h'.arrays i a (h.arrays i a hi)
  constants i a hi := h'.constants i a (h.constants i a hi)
  names i f hf := by
    obtain ⟨g, hg, hname⟩ := h.names i f hf
    obtain ⟨k, hk, hname'⟩ := h'.names i g hg
    exact ⟨k, hk, hname'.trans hname⟩

/-- A function that changes keeps its name. -/
theorem Grows.modify {change : Function → Function} : P.Grows (P.modifyFunction change id) where
  vars _ _ h := by simpa using h
  arrays _ _ h := by simpa using h
  constants _ _ h := by simpa using h
  names i f hf := by
    rw [function?_modifyFunction]
    split
    · exact ⟨_, congrArg (Option.map _) hf, rfl⟩
    · exact ⟨f, hf, rfl⟩

theorem Grows.put {g : Function} : P.Grows (P.modifyFunction (fun _ => g) id) := .modify

/-- No function is lost. -/
theorem Grows.function?_eq_none {Q : Program} (h : P.Grows Q) (hid : Q.function? id = none) :
    P.function? id = none := by
  by_contra hne
  obtain ⟨f, hf⟩ := Option.ne_none_iff_exists'.1 hne
  obtain ⟨g, hg, -⟩ := h.names id f hf
  cases hid.symm.trans hg

theorem Grows.names_eq {Q : Program} (h : P.Grows Q) : Q.main.name = P.main.name ∧
    Q.answer.name = P.answer.name := by
  obtain ⟨f, hf, hmain⟩ := h.names mainId _ rfl
  obtain ⟨g, hg, hanswer⟩ := h.names answerId _ rfl
  cases hf
  cases hg
  exact ⟨hmain, hanswer⟩

/-- From `P` to `Q` the tables got no shorter, the function `id` got the instructions `is`, and
every function that is new is empty. -/
structure Extends (P : Program) (id : Nat) (is : List Command) (Q : Program) : Prop where
  vars : ∀ i a, P.vars.get? i = some a → Q.vars.get? i = some a
  arrays : ∀ i a, P.arrays.get? i = some a → Q.arrays.get? i = some a
  constants : ∀ i a, P.constants.get? i = some a → Q.constants.get? i = some a
  limits : Q.limits = P.limits
  written : ∃ f c, P.function? id = some f ∧ f.code.Writes is c ∧
    Q.function? id = some { f with code := c }
  others : ∀ i f, i ≠ id → P.function? i = some f → Q.function? i = some f
  fresh : ∀ i f, P.function? i = none → Q.function? i = some f → f = { name := f.name }

namespace Extends

variable {P Q R : Program} {id : Nat} {is js : List Command}

theorem refl {f : Function} (h : P.function? id = some f) : P.Extends id [] P where
  vars _ _ := fun h => h
  arrays _ _ := fun h => h
  constants _ _ := fun h => h
  limits := rfl
  written := ⟨f, f.code, h, .nil, h⟩
  others _ _ _ := fun h => h
  fresh _ _ h h' := by simp [h] at h'

theorem trans (h : P.Extends id is Q) (h' : Q.Extends id js R) : P.Extends id (is ++ js) R where
  vars i a := fun hi => h'.vars i a (h.vars i a hi)
  arrays i a := fun hi => h'.arrays i a (h.arrays i a hi)
  constants i a := fun hi => h'.constants i a (h.constants i a hi)
  limits := h'.limits.trans h.limits
  written := by
    obtain ⟨f, c, hf, hc, hQ⟩ := h.written
    obtain ⟨g, d, hg, hd, hR⟩ := h'.written
    cases hQ.symm.trans hg
    exact ⟨f, d, hf, hc.trans hd, hR⟩
  others i f hi := fun hf => h'.others i f hi (h.others i f hi hf)
  fresh i f hi hR := by
    cases hQ : Q.function? i with
    | none => exact h'.fresh i f hQ hR
    | some g =>
      have hne : i ≠ id := by
        rintro rfl
        obtain ⟨f, _, hf, -⟩ := h.written
        simp [hi] at hf
      cases (h'.others i g hne hQ).symm.trans hR
      exact h.fresh i _ hi hQ

/-- An entry keeps its name. -/
theorem name_eq (h : P.Extends id is Q) {i : Nat} {f : Function} (hf : P.function? i = some f) :
    ∃ g, Q.function? i = some g ∧ g.name = f.name := by
  by_cases hi : i = id
  · subst hi
    obtain ⟨f', c, hf', -, hQ⟩ := h.written
    cases hf.symm.trans hf'
    exact ⟨_, hQ, rfl⟩
  · exact ⟨f, h.others i f hi hf, rfl⟩

theorem grows (h : P.Extends id is Q) : P.Grows Q :=
  ⟨h.vars, h.arrays, h.constants, fun _ _ => h.name_eq⟩

end Extends

theorem modifyFunction_congr (hf : P.function? id = some f) {g h : Function → Function}
    (hgh : g f = h f) : P.modifyFunction g id = P.modifyFunction h id := by
  rcases id with _ | _ | id
  · cases hf
    simp [modifyFunction, hgh]
  · cases hf
    simp [modifyFunction, hgh]
  · simp only [modifyFunction, Program.mk.injEq, Store.mk.injEq, true_and, and_true]
    apply Array.ext_getElem?
    intro i
    simp only [function?] at hf
    rw [Array.getElem?_modify, Array.getElem?_modify]
    split
    · next hi =>
      subst hi
      rw [hf, Option.map_some, Option.map_some, hgh]
    · rfl

theorem extends_write (hf : P.function? id = some f) {is : List Command} {c : Code}
    (hc : f.code.Writes is c) :
    P.Extends id is (P.modifyFunction (fun f => { f with code := c }) id) where
  vars _ _ h := by simpa using h
  arrays _ _ h := by simpa using h
  constants _ _ h := by simpa using h
  limits := by simp
  written := ⟨f, c, hf, hc, by simp [function?_modifyFunction, hf]⟩
  others i g hi hg := by simp [function?_modifyFunction, hi, hg]
  fresh i g hi hg := by
    simp only [function?_modifyFunction, hi] at hg
    split at hg <;> simp at hg

/-- The function that got the code `is` gets other code instead. -/
theorem Extends.rewrite {Q : Program} {is js : List Command} (h : P.Extends id is Q) {g : Function}
    {c : Code} (hf : P.function? id = some f) (hc : f.code.Writes js c)
    (hg : Q.function? id = some g) :
    P.Extends id js (Q.modifyFunction (fun _ => { g with code := c }) id) where
  vars i a hi := by simpa using h.vars i a hi
  arrays i a hi := by simpa using h.arrays i a hi
  constants i a hi := by simpa using h.constants i a hi
  limits := by simpa using h.limits
  written := by
    obtain ⟨f', d, hf', -, hQ⟩ := h.written
    cases hf.symm.trans hf'
    cases hg.symm.trans hQ
    exact ⟨f, c, hf, hc, by simp [function?_modifyFunction, hg]⟩
  others i k hi hk := by simp [function?_modifyFunction, hi, h.others i k hi hk]
  fresh i k hi hk := by
    have hne : i ≠ id := by
      rintro rfl
      simp [hi] at hf
    rw [function?_modifyFunction, if_neg hne] at hk
    exact h.fresh i k hi hk

end Program

/-! ## Entering names -/

namespace TableEntry

/-- Enter it for the token at `span`. -/
def enter (span : Span) : TableEntry → Program → Except Diagnostic (Nat × Program)
  | var name => (·.internVar name span)
  | array name => (·.internArray name span)
  | constant c => (·.internConstant c span)
  | function name => (·.internFunction name span)

/-- It has the index `k`. -/
def At (P : Program) (k : Nat) : TableEntry → Prop
  | var name => P.vars.get? k = some name
  | array name => P.arrays.get? k = some name
  | constant c => P.constants.get? k = some c
  | function name => ∃ f, P.function? k = some f ∧ f.name = name

/-- A name is `Fit`. -/
def Fits (Fit : String → Prop) : TableEntry → Prop
  | var name | array name | function name => Fit name
  | constant _ => True

/-- The name of a local, in its namespace. -/
def ofLocal (kind : LocalKind) (name : String) : TableEntry :=
  if kind.isArray then array name else var name

theorem enter_ofLocal (kind : LocalKind) (name : String) (span : Span) :
    (fun P : Program => if kind.isArray then P.internArray name span else P.internVar name span) =
      (ofLocal kind name).enter span := by
  unfold ofLocal
  split <;> rfl

end TableEntry

theorem Program.enter_of_ok {f : Store → Except Diagnostic (Nat × Store)}
    (hf : ∀ {s t index}, s.Agrees → f s = .ok (index, t) → t.Agrees) {P : Program} {k : Nat}
    {s : Store} (h : f P.toStore = .ok (k, s)) :
    ∃ Q, Q.toStore = s ∧ P.enter f hf = .ok (k, Q) := by
  unfold enter
  split
  · next heq =>
    cases heq.symm.trans h
    exact ⟨_, rfl, rfl⟩
  · next heq => cases heq.symm.trans h

theorem Program.enter_of_error {f : Store → Except Diagnostic (Nat × Store)}
    {hf : ∀ {s t index}, s.Agrees → f s = .ok (index, t) → t.Agrees} {P : Program} {d : Diagnostic}
    (h : f P.toStore = .error d) : P.enter f hf = .error d := by
  unfold enter
  split
  · next heq => cases heq.symm.trans h
  · next heq =>
    cases heq.symm.trans h
    rfl

theorem Program.eq_of_toStore {P Q : Program} (h : Q.toStore = P.toStore) : Q = P := by
  cases P
  cases Q
  cases h
  rfl

/-- It is found, added at the end of its table, or refused for want of room. -/
theorem TableEntry.enter_cases (e : TableEntry) (span : Span) (P : Program) :
    (∃ k, P.lookup? e = some k ∧ e.enter span P = .ok (k, P)) ∨
      (∃ Q, P.lookup? e = none ∧ P.count e.shelf < P.limits.room e.shelf ∧
        Q.toStore = P.push e ∧ e.enter span P = .ok (P.count e.shelf, Q)) ∨
      (P.lookup? e = none ∧ P.limits.room e.shelf ≤ P.count e.shelf ∧
        e.enter span P = .error (e.shortage span)) := by
  have hlift : e.enter span P = P.enter (·.enter span e) .enter := by cases e <;> rfl
  rw [hlift]
  refine (P.toStore.enter_cases e span).imp ?_ (.imp ?_ ?_)
  · rintro ⟨k, hlookup, h⟩
    obtain ⟨Q, hQ, heq⟩ := Program.enter_of_ok .enter h
    exact ⟨k, hlookup, Program.eq_of_toStore hQ ▸ heq⟩
  · rintro ⟨hlookup, hroom, h⟩
    obtain ⟨Q, hQ, heq⟩ := Program.enter_of_ok .enter h
    exact ⟨Q, hlookup, hroom, hQ, heq⟩
  · rintro ⟨hlookup, hroom, h⟩
    exact ⟨hlookup, hroom, Program.enter_of_error h⟩

/-- It has the index under which it is found. -/
theorem TableEntry.at_of_lookup {P : Program} {k : Nat} (h : P.lookup? e = some k) : e.At P k := by
  have hat := (P.agrees.lookup e k).1 h
  cases e with
  | function name => simpa [At, Store.entries, shelf, Program.getElem?_functions] using hat
  | _ => simpa [At, Store.entries, shelf, Table.get?] using hat

/-- **A new entry lets the program grow.** -/
theorem Program.extends_push {P Q : Program} {id : Nat} {f : Function}
    (hf : P.function? id = some f) (hQ : Q.toStore = P.push e) : P.Extends id [] Q := by
  obtain ⟨Q, hagrees⟩ := Q
  subst hQ
  have hpush {α : Type} {t : Table α} {a b : α} {i : Nat} (hi : t.get? i = some b) :
      (t.push a).get? i = some b := by
    rw [Table.get?_push, if_neg, hi]
    rintro rfl
    simp [Table.get?, Table.size] at hi
  cases e with
  | var name => exact { Extends.refl hf with vars := fun _ _ => hpush }
  | array name => exact { Extends.refl hf with arrays := fun _ _ => hpush }
  | constant c => exact { Extends.refl hf with constants := fun _ _ => hpush }
  | function name =>
    have hfun (i : Nat) : Program.function? ⟨P.push (.function name), hagrees⟩ i =
        if i = P.functions.length then some { name := name } else P.function? i := by
      rw [← getElem?_functions, ← getElem?_functions]
      grind [Store.push, Store.pushFunction, Store.functions]
    have hnew : P.function? P.functions.length = none := by
      rw [← getElem?_functions]
      simp
    have hold {i : Nat} {g : Function} (hg : P.function? i = some g) :
        Program.function? ⟨P.push (.function name), hagrees⟩ i = some g := by
      rw [hfun, if_neg, hg]
      rintro rfl
      cases hnew.symm.trans hg
    refine { Extends.refl hf with
      written := ⟨f, f.code, hf, .nil, hold hf⟩
      others := fun i g _ => hold
      fresh := fun i g hi hg => ?_ }
    rw [hfun] at hg
    split at hg
    · cases hg
      rfl
    · cases hi.symm.trans hg

/-- **Entering a name lets the program grow.** -/
theorem TableEntry.extends_of_function {span : Span} {P Q : Program} {id k : Nat} {f : Function}
    (hf : P.function? id = some f) (h : e.enter span P = .ok (k, Q)) :
    P.Extends id [] Q ∧ e.At Q k := by
  rcases enter_cases e span P with ⟨i, hi, heq⟩ | ⟨R, -, -, hR, heq⟩ | ⟨-, -, heq⟩ <;>
    cases heq.symm.trans h
  · exact ⟨.refl hf, at_of_lookup hi⟩
  · refine ⟨Program.extends_push hf hR, at_of_lookup ((Q.agrees.lookup e _).2 ?_)⟩
    rw [hR, Store.entries_push, if_pos rfl, ← Store.length_entries]
    simp

/-- The source is refused because a table is full. -/
def Stop.IsShortage (e : Stop) : Prop := ∃ d, e = .refused d ∧ d.category = .resource

/-- The source is refused. -/
def Stop.IsRefusal (e : Stop) : Prop := ∃ d, e = .refused d

theorem not_isRefusal_fault (f : Fault) : ¬(Stop.fault f).IsRefusal := by
  rintro ⟨d, ⟨⟩⟩

theorem Stop.IsShortage.isRefusal {e : Stop} (h : e.IsShortage) : e.IsRefusal :=
  ⟨_, h.choose_spec.1⟩

theorem TableEntry.extends_enter {span : Span} {P Q : Program} {k : Nat}
    (h : e.enter span P = .ok (k, Q)) : P.Extends Program.mainId [] Q ∧ e.At Q k :=
  extends_of_function rfl h

theorem TableEntry.eq_shortage_of_enter {span : Span} {P : Program} {d : Diagnostic}
    (h : e.enter span P = .error d) : d = e.shortage span := by
  rcases enter_cases e span P with ⟨_, -, heq⟩ | ⟨_, -, -, -, heq⟩ | ⟨-, -, heq⟩ <;>
    cases heq.symm.trans h
  rfl

theorem TableEntry.isShortage (e : TableEntry) (span : Span) :
    (Stop.refused (e.shortage span)).IsShortage :=
  ⟨_, rfl, by cases e <;> rfl⟩

end DeskCalc
