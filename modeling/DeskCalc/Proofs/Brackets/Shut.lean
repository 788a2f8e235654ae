import DeskCalc.Block
import DeskCalc.Proofs.Brackets.Phrases

/-!
# The braces of closed blocks

Where bodies are closed, a closing brace that has been read is taken by the first block that has a
brace. `Shut mode s had left v t` says what becomes of the open blocks `s`: they are `t` afterwards,
a closing brace was at hand before if `had` and is still if `left`, and of the tokens only `v` was
read, which is line feeds and maybe an `else`.
-/

namespace DeskCalc

namespace BlockStack

variable {s t : BlockStack} {b : Block}

/-- The number of open braces. -/
def openBraces (s : BlockStack) : Nat := s.toList.countP (·.brace)

@[simp] theorem openBraces_push (s : BlockStack) (b : Block) :
    (s.push b).openBraces = s.openBraces + b.brace.toNat := by
  rw [openBraces, toList_push, List.countP_cons]
  cases b.brace <;> rfl

theorem openBraces_eq (s : BlockStack) :
    s.openBraces = s.below.countP (·.brace) + s.top.brace.toNat := by
  rw [openBraces, toList, List.countP_cons]
  cases s.top.brace <;> rfl

theorem openBraces_modifyTop {f : Block → Block} (h : (f s.top).brace = s.top.brace) :
    (s.modifyTop f).openBraces = s.openBraces := by
  rw [openBraces_eq, openBraces_eq, modifyTop, h]

theorem openBraces_pop (h : 1 < s.depth) :
    s.pop.openBraces + s.top.brace.toNat = s.openBraces := by
  rcases s with ⟨top, _ | ⟨c, below⟩⟩
  · simp [depth] at h
  · rw [openBraces_eq ⟨top, c :: below⟩]
    rfl

/-- Closing a block without a brace. -/
theorem openBraces_pop_of_not (h : s.top.brace = false) : s.pop.openBraces = s.openBraces := by
  rcases s with ⟨top, _ | ⟨c, below⟩⟩
  · rfl
  · rw [openBraces_eq ⟨top, c :: below⟩]
    simp only at h
    simp [pop, openBraces, toList, h]

theorem hasBrace_iff : s.hasBrace = true ↔ 0 < s.openBraces := by
  rw [openBraces, List.countP_pos_iff, hasBrace, List.any_eq_true]

theorem hasBrace_congr (h : t.openBraces = s.openBraces) : t.hasBrace = s.hasBrace := by
  rw [Bool.eq_iff_iff, hasBrace_iff, hasBrace_iff, h]

theorem openBraces_of_hasBrace (h : s.hasBrace = false) : s.openBraces = 0 := by
  by_contra hpos
  cases h.symm.trans (hasBrace_iff.2 (Nat.pos_of_ne_zero hpos))

theorem isTopLevel_of_depth (h : s.depth ≤ 1) : s.isTopLevel = true := by
  have hlength : s.below.length = 0 := Nat.le_zero.1 (Nat.le_of_succ_le_succ h)
  rw [isTopLevel, List.length_eq_zero_iff.1 hlength]
  rfl

theorem eq_of_isIdle (h : s.isIdle = true) : s = {} := by
  simp only [isIdle, isTopLevel, Block.isEmpty, Bool.and_eq_true, List.isEmpty_iff,
    beq_iff_eq] at h
  rcases s with ⟨top, below⟩
  obtain ⟨rfl, rfl⟩ := h
  rfl

theorem depth_pop_le (s : BlockStack) : s.pop.depth ≤ s.depth := by
  have hpos : 1 ≤ s.depth := Nat.le_add_left 1 _
  rw [depth_pop]
  omega

theorem depth_pop_lt (h : 1 < s.depth) : s.pop.depth < s.depth := by
  rw [depth_pop]
  omega

theorem top_pop_mem (h : 1 < s.depth) : s.pop.top ∈ s.below := by
  rcases s with ⟨top, _ | ⟨c, below⟩⟩
  · simp [depth] at h
  · exact List.mem_cons_self

/-- Only the innermost block can await its body. -/
def Calm (s : BlockStack) : Prop := ∀ b ∈ s.below, b.awaited = false

/-- No block awaits its body. -/
structure Quiet (s : BlockStack) : Prop where
  calm : s.Calm
  top : s.top.awaited = false

theorem Quiet.pop (h : s.Quiet) : s.pop.Quiet := by
  rcases s with ⟨top, _ | ⟨c, below⟩⟩
  · exact h
  · exact ⟨fun b hb => h.calm b (List.mem_cons_of_mem c hb), h.calm c List.mem_cons_self⟩

theorem Quiet.push (h : s.Quiet) (b : Block) : (s.push b).Calm := by
  intro c hc
  rcases List.mem_cons.1 hc with rfl | hc
  · exact h.top
  · exact h.calm c hc

/-- Inside a block without a brace a body is awaited, or an `else` may follow. -/
def Anchored (s : BlockStack) : Prop :=
  1 < s.depth → s.top.brace = true ∨ s.top.awaited = true ∨ s.top.ifEnded = true

end BlockStack

/-- The blocks `s` were closed down to `t`, see above. -/
structure Shut (mode : Strictness) (s : BlockStack) (had left : Bool) (v : List Token)
    (t : BlockStack) : Prop where
  braces : t.openBraces + had.toNat = s.openBraces + left.toNat
  spent : left = true → had = true
  depth : t.depth ≤ s.depth
  found : kindsOf v = [] ∧ (s.Quiet → t.Quiet) ∨
    kindsOf v = [.keyword .elseBranch] ∧ mode ≠ .strict ∧ t.top.Awaits ∧ (s.Quiet → t.Calm)

namespace Shut

variable {mode : Strictness} {s t u : BlockStack} {had mid left : Bool} {v w : List Token}

theorem refl : Shut mode s had had [] s := ⟨rfl, id, Nat.le_refl _, .inl ⟨rfl, id⟩⟩

theorem trans (h : Shut mode s had mid v t) (hv : kindsOf v = []) (h' : Shut mode t mid left w u) :
    Shut mode s had left (v ++ w) u where
  braces := by
    have := h.braces
    have := h'.braces
    omega
  spent hleft := h.spent (h'.spent hleft)
  depth := Nat.le_trans h'.depth h.depth
  found := by
    have hquiet : s.Quiet → t.Quiet := by
      rcases h.found with ⟨-, hq⟩ | ⟨helse, -⟩
      · exact hq
      · rw [hv] at helse
        cases helse
    rw [kindsOf_append, hv, List.nil_append]
    rcases h'.found with ⟨hw, hq⟩ | ⟨hw, hmode, hawaits, hq⟩
    · exact .inl ⟨hw, fun hs => hq (hquiet hs)⟩
    · exact .inr ⟨hw, hmode, hawaits, fun hs => hq (hquiet hs)⟩

/-- The brace at hand closes the innermost block if that has one. -/
theorem pop (hdepth : 1 < s.depth) (hbrace : s.top.brace = true → had = true) :
    Shut mode s had (had && !s.top.brace) [] s.pop := by
  have hopen := BlockStack.openBraces_pop hdepth
  refine ⟨?_, fun hleft => (Bool.and_eq_true _ _ ▸ hleft).1, s.depth_pop_le,
    .inl ⟨rfl, BlockStack.Quiet.pop⟩⟩
  cases hb : s.top.brace with
  | false => simp_all
  | true => simp_all

/-- A block without a brace leaves the brace at hand. -/
theorem pop_of_not (hbrace : s.top.brace = false) : Shut mode s had had [] s.pop :=
  ⟨by rw [BlockStack.openBraces_pop_of_not hbrace], id, s.depth_pop_le,
    .inl ⟨rfl, BlockStack.Quiet.pop⟩⟩

/-- Line feeds are skipped, and the mark of an `if` is set or taken off. -/
theorem mark (h : Shut mode s had left [] t) (hv : kindsOf v = []) (ended : Bool) :
    Shut mode s had left v (t.modifyTop ({ · with ifEnded := ended })) := by
  refine h.trans rfl ⟨by rw [BlockStack.openBraces_modifyTop rfl], id, Nat.le_refl _, .inl ⟨hv, ?_⟩⟩
  exact fun ht => ⟨ht.calm, ht.top⟩

section

variable (h : Shut mode s had left v t)
include h

/-- An `else` opens a body without a brace in place of one that was closed. -/
theorem push (hv : kindsOf v = []) (hdepth : t.depth < s.depth) {b : Block} (hb : b.Awaits)
    (hw : kindsOf w = [.keyword .elseBranch]) (hmode : mode ≠ .strict) :
    Shut mode s had left (v ++ w) (t.push b) where
  braces := by
    rw [BlockStack.openBraces_push, hb.brace]
    exact h.braces
  spent := h.spent
  depth := hdepth
  found := by
    refine .inr ⟨by rw [kindsOf_append, hv, hw, List.nil_append], hmode, hb, fun hs => ?_⟩
    rcases h.found with ⟨-, hq⟩ | ⟨helse, -⟩
    · exact (hq hs).push b
    · rw [hv] at helse
      cases helse

/-- Line feeds and an `else` are read, and nothing else. -/
theorem eq_or_eq : kindsOf v = [] ∨ kindsOf v = [.keyword .elseBranch] := by
  rcases h.found with ⟨hv, -⟩ | ⟨hv, -⟩
  · exact .inl hv
  · exact .inr hv

theorem mild : Mild mode (kindsOf v) := by
  rcases h.eq_or_eq with hv | hv <;> rw [hv]
  · exact .nil
  · exact .single rfl rfl

theorem kind_of_mem : ∀ x ∈ v, x.kind = .newline ∨ x.kind = .keyword .elseBranch := by
  intro x hx
  by_cases hne : x.kind = .newline
  · exact .inl hne
  · have hmem := mem_kindsOf_of_mem hx hne
    rcases h.eq_or_eq with hv | hv <;> rw [hv] at hmem
    · cases hmem
    · exact .inr (List.mem_singleton.1 hmem)

theorem calm (hs : s.Quiet) : t.Calm := by
  rcases h.found with ⟨-, hq⟩ | ⟨-, -, -, hq⟩
  · exact (hq hs).calm
  · exact hq hs

/-- The body that is awaited is that of the `else`. -/
theorem eq_else (hs : s.Quiet) (ht : t.top.awaited = true) :
    kindsOf v = [.keyword .elseBranch] ∧ t.top.Awaits := by
  rcases h.found with ⟨-, hq⟩ | ⟨hv, -, hawaits, -⟩
  · rw [(hq hs).top] at ht
    cases ht
  · exact ⟨hv, hawaits⟩

end

end Shut

end DeskCalc
