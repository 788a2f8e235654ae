import DeskCalc.Proofs.Operands
import DeskCalc.Proofs.Statement.Parts

/-!
# Every part of the compiler keeps a program valid

`Safe m` says that `m` leaves a valid program valid and only lets its tables grow, whatever the
outcome. This needs nothing of what is open. Operands are entered by expressions, where a local is
declared and where a function is defined; the jumps of headers name labels, of which validity says
nothing.
-/

namespace DeskCalc

/-- The names among the tokens to come are spelled as names. -/
def Pass.Named (p : Pass) : Prop := ∀ t ∈ p.rest, t.kind = .name → IsName t.text

theorem Session.named_start (s : Session) (text : String) : (Pass.start s text).Named :=
  fun _ => isName_of_mem_start

/-- The digits of a number are digits and points. -/
theorem Compile.backslash_not_mem_digits (text : String) : '\\' ∉ (digits text).toList := by
  rw [digits, String.toList_ofList, List.mem_filter]
  rintro ⟨-, h⟩
  cases h

namespace Program

variable {P Q : Program} {k : Nat} {f : Function}

/-- A function with a name of the source is not one of those that are always there. -/
theorem Valid.answerId_lt (h : P.Valid) (hf : P.function? k = some f)
    (hname : IsName f.name) : answerId < k := by
  rcases k with _ | _ | k
  · cases hf
    exact absurd h.names.1 hname.ne.1
  · cases hf
    exact absurd h.names.2 hname.ne.2
  · exact Nat.succ_lt_succ (Nat.succ_pos k)

/-- The instructions of expressions are provided for. -/
theorem Denotes.provides {reads : Bool} {s : Symbolic} {i : Command} (h : P.Denotes s i)
    (hP : P.Valid) (hs : s.Usual reads IsName) :
    P.Provides i.1 (i.2.map (· % wordBound)) := by
  have hconstant {k : Nat} {c : Constant} (hk : P.constants.get? k = some c) : k < wordBound :=
    Nat.lt_of_lt_of_le (Table.lt_size_iff.2 ⟨c, hk⟩) hP.constants.2
  have hindex {t : Table String} {k : Nat} {name : String} (hk : t.get? k = some name) :
      k % wordBound < t.size :=
    Nat.lt_of_le_of_lt (Nat.mod_le k _) (Table.lt_size_iff.2 ⟨name, hk⟩)
  cases s with
  | plain op =>
    cases h
    exact provides_of_operandCount hs.2.1
  | number text =>
    obtain ⟨k, rfl, hk⟩ := h
    obtain ⟨t, rfl⟩ := hs
    refine ⟨k, _, ?_, hk, Compile.backslash_not_mem_digits t⟩
    rw [List.map_singleton, Nat.mod_eq_of_lt (hconstant hk)]
  | string text =>
    obtain ⟨k, rfl, hk⟩ := h
    refine ⟨k, _, ?_, hk⟩
    rw [List.map_singleton, Nat.mod_eq_of_lt (hconstant hk)]
  | var name | elem name | array name =>
    obtain ⟨k, rfl, hk⟩ := h
    exact ⟨_, rfl, hindex hk⟩
  | call count name =>
    obtain ⟨k, f, rfl, hf, rfl⟩ := h
    have hlt := lt_length_functions_iff.2 ⟨f, hf⟩
    refine ⟨count % wordBound, k, ?_, hP.answerId_lt hf hs, hlt⟩
    rw [List.map_cons, List.map_singleton, Nat.mod_eq_of_lt (Nat.lt_of_lt_of_le hlt hP.functions.2)]

/-- Names are entered as long as there is room. -/
theorem Valid.enter {e : TableEntry} {span : Span} (h : P.Valid) (hfits : e.Fits IsName)
    (he : e.enter span P = .ok (k, Q)) : Q.Valid := by
  have hQ := (TableEntry.extends_enter he).1
  rcases TableEntry.enter_cases e span P with ⟨_, -, heq⟩ | ⟨R, -, hroom, hR, heq⟩ | ⟨-, -, heq⟩ <;>
    cases heq.symm.trans he
  · exact h
  obtain ⟨Q, hagrees⟩ := Q
  subst hR
  cases e with
  | var name =>
    exact h.extends hQ h.constants.2 h.functions.2
      { h.spelled with vars := Table.forall_push hfits h.spelled.vars }
  | array name =>
    exact h.extends hQ h.constants.2 h.functions.2
      { h.spelled with arrays := Table.forall_push hfits h.spelled.arrays }
  | constant c =>
    refine h.extends hQ ?_ h.functions.2 { h.spelled with }
    have hlt : P.constants.size < P.limits.constants := hroom
    have hsize := P.constants.size_push c
    have hmax := h.constants.1
    simp only [Store.push]
    omega
  | function name =>
    refine h.extends hQ h.constants.2 ?_ { h.spelled with functions := fun id f hf => ?_ }
    · have hlt : P.functions.length < max 2 P.limits.functions := hroom
      have hmax := h.functions.1
      simp only [Store.push, Store.pushFunction, Store.functions, Array.toList_push, List.length_cons,
        List.length_append, List.length_nil] at hlt ⊢
      omega
    · simp only [Program.function?, Store.push, Store.pushFunction, Array.getElem?_push] at hf
      split at hf
      · cases hf
        exact hfits
      · exact h.spelled.functions id f hf

end Program

namespace Compile

variable {p : Pass}

/-- What every part of the compiler needs to keep a program valid. -/
abbrev Sound (p : Pass) : Prop := p.Named ∧ p.program.Valid

/-- The function that receives code changes. -/
theorem modifyFunction_sound {change : Function → Function} (h : Sound p)
    (hchange : ∀ f, p.program.Provided f → p.program.Provided (change f)) :
    Ensures (modifyFunction change) p (fun _ q => Sound q ∧ p.program.Grows q.program)
      fun _ q => q.program.Valid := by
  simp only [modifyFunction, ensures_bind, ensures_get, ensures_ite, ensures_set, ensures_throw]
  split
  · refine ⟨⟨h.1, ?_⟩, .modify⟩
    exact h.2.modifyFunction fun f hf => hchange f (h.2.provided _ f hf)
  · exact h.2

/-- Another function is put in place of the one that receives code. -/
theorem putFunction_sound {g : Function} (h : Sound p) (hg : p.program.Provided g) :
    Ensures (putFunction g) p (fun _ q => Sound q ∧ p.program.Grows q.program)
      fun _ q => q.program.Valid :=
  ⟨⟨h.1, h.2.modifyFunction fun _ _ => hg⟩, .put⟩

theorem emitWith_sound {op : Opcode} {operands : List Nat} (h : Sound p)
    (hop : operands.length = op.operandCount)
    (hprovides : p.program.Provides op (operands.map (· % wordBound))) :
    Ensures (emitWith op operands) p (fun _ q => Sound q ∧ p.program.Grows q.program)
      fun _ q => q.program.Valid :=
  modifyFunction_sound h fun _ hf => hf.write hop hprovides _

/-- **A program stays valid, and its tables grow.** -/
def safe : Stepwise where
  Pre := Sound
  Done p q := p.program.Grows q.program
  Left _ _ q := q.program.Valid
  Known _ := True
  Fit := IsName
  reads := true
  known _ := ⟨trivial, fun _ _ _ _ => trivial⟩
  fit h := h.1 _ (List.mem_cons_self ..)
  trans := growing.trans
  left h _ _ := h.2
  leave _ h := h
  done h hahead hprogram _ _ :=
    ⟨⟨fun t ht => h.1 t (hahead.rest ht), hprogram ▸ h.2⟩, hprogram ▸ .refl _⟩
  emit h hs hi := emitWith_sound h (hi.usual hs).2.1 (hi.provides h.2 hs)
  enter {p} h e span he _ := by
    simp only [intern, ensures_bind, ensures_get]
    cases hk : e.enter span p.program with
    | ok r => exact ⟨⟨h.1, h.2.enter he hk⟩, (TableEntry.extends_enter hk).1.grows⟩
    | error d => exact h.2
  suppressValue {p} h t := by
    simp only [Compile.suppressValue, function, here, ensures_bind, ensures_get]
    split
    · next f hf =>
      simp only [ensures_pure]
      split
      · next code hcode =>
        rw [ensures_bind]
        exact putFunction_sound h ((h.2.provided _ f hf).discardValue hcode)
      · exact ⟨h, .refl _⟩
    · exact h.2
  anyReads := rfl
  jump h _ hop label := by
    refine emitWith_sound h ?_ ?_ <;> rcases hop with rfl | rfl <;> trivial
  relabel {p} f h hf labels := putFunction_sound h ((h.2.provided _ f hf).congr rfl rfl)

/-- The computation keeps a program valid. -/
abbrev Safe {α : Type} (m : Compile α) : Prop := Fine safe.parts m

end Compile

end DeskCalc
