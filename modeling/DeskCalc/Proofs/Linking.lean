import DeskCalc.Proofs.Reachable
import DeskCalc.Proofs.Rollback

/-!
# Where the jumps of a program lead

A jump names a label of its function. Some jumps are written before their label is made, but at the
end of each statement all labels that jumps name have been made (`Draft.Edits.wired`). A label that
has been made is pending only as long as its block is open, and otherwise it lies where an
instruction starts or at the end of the code. So a whole text compiles to a program whose jumps all
lead somewhere, unless a `quit` stands inside an open block: then the jumps to the end of that block
lead nowhere (`Program.quitInIf_unlinked`), and these are the only ones.
-/

namespace DeskCalc

namespace Function

/-- The code is made of instructions, and every jump names a label that has been made or one of the
first `named`. -/
def Wired (f : Function) (named : Nat) : Prop :=
  ∃ is, f.code.Holds is ∧ ∀ c ∈ is, c.1.isJump = true → ∀ l ∈ c.2, l < max named f.labels.size

variable {f g : Function} {n m : Nat}

theorem wired_of_empty (hcode : f.code = {}) : f.Wired n :=
  ⟨[], hcode ▸ .empty_nil, nofun⟩

theorem Wired.congr (h : f.Wired n) (hcode : g.code = f.code)
    (hle : max n f.labels.size ≤ max m g.labels.size) : g.Wired m := by
  obtain ⟨is, his, hjumps⟩ := h
  exact ⟨is, hcode ▸ his, fun c hc hjump l hl => (hjumps c hc hjump l hl).trans_le hle⟩

theorem Wired.writes (h : f.Wired n) {is : List Command} {c : Code} (hc : f.code.Writes is c)
    (hjumps : ∀ c ∈ is, c.1.isJump = true → ∀ l ∈ c.2, l < max n f.labels.size) :
    Wired { f with code := c } n := by
  obtain ⟨js, hjs, hold⟩ := h
  refine ⟨js ++ is, hjs.writes hc, fun i hi => ?_⟩
  rcases List.mem_append.1 hi with hi | hi
  · exact hold i hi
  · exact hjumps i hi

end Function

namespace Draft

/-- Every jump names a label that has been made, apart from the first `named` labels of the function
that receives code, and so does every open block. -/
structure Wired (d : Draft) (named : Nat) : Prop where
  function : ∃ f, d.function? = some f ∧ f.Wired named ∧ (∀ x ∈ d.exits, x.label < f.labels.size) ∧
    ∀ l ∈ d.continues, l < f.labels.size
  others : ∀ i g, i ≠ d.target → d.program.function? i = some g → g.Wired 0

variable {d e : Draft} {anew : String → Prop} {n m : Nat} {f g : Function}

theorem Wired.congr (h : d.Wired n) (hf : d.function? = some f) : f.Wired n ∧
    (∀ x ∈ d.exits, x.label < f.labels.size) ∧ ∀ l ∈ d.continues, l < f.labels.size := by
  obtain ⟨f', hf', hrest⟩ := h.function
  cases hf.symm.trans hf'
  exact hrest

theorem Wired.lt_of_names (h : d.Wired n) (hf : d.function? = some f) {l : Nat}
    (hl : d.Names n l) : l < max n f.labels.size := by
  obtain ⟨-, hexits, hcontinues⟩ := h.congr hf
  rcases hl with ⟨f', hf', hl⟩ | hl | hl
  · cases hf.symm.trans hf'
    exact hl
  · obtain ⟨x, hx, rfl⟩ := List.mem_map.1 hl
    exact lt_max_of_lt_right (hexits x hx)
  · exact lt_max_of_lt_right (hcontinues l hl)

theorem Wired.others_of_extends {P Q : Program} {id : Nat} {is : List Command}
    (h : ∀ i g, i ≠ id → P.function? i = some g → g.Wired 0) (hQ : P.Extends id is Q) :
    ∀ i g, i ≠ id → Q.function? i = some g → g.Wired 0 := by
  intro i g hi hg
  cases hf : P.function? i with
  | none =>
    rw [hQ.fresh i g hf hg]
    exact Function.wired_of_empty rfl
  | some f =>
    cases (hQ.others i f hi hf).symm.trans hg
    exact h i _ hi hf

/-- Something else than the code of the function changes. -/
theorem Wired.put (h : d.Wired n) (hf : d.function? = some f) (hname : g.name = f.name)
    (hcode : g.code = f.code)
    (hle : f.labels.size ≤ g.labels.size) {xs : List Exit} {ls : List Nat}
    (hexits : ∀ x ∈ xs, x.label < g.labels.size) (hcontinues : ∀ l ∈ ls, l < g.labels.size) :
    Wired { d.put g with exits := xs, continues := ls } n where
  function := ⟨g, function?_put hf hname, (h.congr hf).1.congr hcode (max_le_max_left n hle), hexits,
    hcontinues⟩
  others i k hi hk := by
    have hi' : i ≠ d.target := hi
    have hk' : (d.program.modifyFunction (fun _ => g) d.target).function? i = some k := hk
    rw [Program.function?_modifyFunction, if_neg hi'] at hk'
    exact h.others i k hi' hk'

/-- The function that receives code returns, and nothing is open. -/
theorem Wired.finish (h : d.Wired 0) {P : Program} {op : Opcode} (hop : op.isJump = false)
    (hexits : d.exits = []) (hcontinues : d.continues = [])
    (hP : d.program.Extends d.target [(op, [])] P) :
    Wired { d with program := P, target := Program.mainId } 0 := by
  obtain ⟨f, c, hf, hc, hPf⟩ := hP.written
  have hwired : Function.Wired { f with code := c } 0 := by
    refine (h.congr hf).1.writes hc fun i hi hjump => ?_
    cases List.mem_singleton.1 hi
    rw [hop] at hjump
    cases hjump
  have hall (i : Nat) (g : Function) (hg : P.function? i = some g) : g.Wired 0 := by
    by_cases hi : i = d.target
    · subst hi
      cases hPf.symm.trans hg
      exact hwired
    · exact Wired.others_of_extends h.others hP i g hi hg
  refine ⟨⟨P.main, rfl, hall Program.mainId _ rfl, ?_, ?_⟩, fun i g _ => hall i g⟩
  · rw [hexits]
    nofun
  · rw [hcontinues]
    nofun

/-- A function that begins anew has no jumps. -/
theorem Begins.wired (h : d.Begins anew e) (hd : d.Wired 0) : e.Wired 0 := by
  have hall (i : Nat) (g : Function) (hg : d.program.function? i = some g) : g.Wired 0 := by
    by_cases hi : i = d.target
    · subst hi
      exact (hd.congr hg).1
    · exact hd.others i g hi hg
  cases h with
  | @intro id f hmain hexits hcontinues hid hf _ isVoid =>
    refine ⟨⟨{ f.clear with isVoid := isVoid }, ?_, Function.wired_of_empty rfl, ?_, ?_⟩, ?_⟩
    · show (d.program.modifyFunction _ id).function? id = _
      rw [Program.function?_modifyFunction, if_pos rfl, hf]
      rfl
    · rw [hexits]
      nofun
    · rw [hcontinues]
      nofun
    · intro i g hi hg
      rw [Program.function?_modifyFunction, if_neg hi] at hg
      exact hall i g hg

/-- **At the end of each statement all labels that jumps name have been made.** -/
theorem Edits.wired (h : d.Edits anew n e) (hd : d.Wired 0) : e.Wired n := by
  induction h with
  | refl => exact hd
  | name _ hf hm ih =>
    obtain ⟨hwired, hrest⟩ := ih.congr hf
    exact ⟨⟨_, hf, hwired.congr rfl (max_le hm (le_max_right _ _)), hrest⟩, ih.others⟩
  | write _ hP hl ih =>
    obtain ⟨f, c, hf, hc, hPf⟩ := hP.written
    obtain ⟨hwired, hrest⟩ := ih.congr hf
    refine ⟨⟨_, hPf, hwired.writes hc fun i hi hjump l hm => ?_, hrest⟩,
      Wired.others_of_extends ih.others hP⟩
    exact ih.lt_of_names hf (hl i hi hjump l hm)
  | @label n e f _ hf ih =>
    obtain ⟨-, hexits, hcontinues⟩ := ih.congr hf
    have hsize := f.labels.size_push (.known f.code.size)
    refine ih.put (g := { f with labels := f.labels.push (.known f.code.size) }) hf rfl rfl
      (hsize ▸ Nat.le_succ _) (fun x hx => ?_) fun l hl => ?_
    · exact hsize ▸ Nat.lt_succ_of_lt (hexits x hx)
    · exact hsize ▸ Nat.lt_succ_of_lt (hcontinues l hl)
  | @openExit n e f _ hf isLoop ih =>
    obtain ⟨-, hexits, hcontinues⟩ := ih.congr hf
    have hsize := f.labels.size_push .pending
    refine ih.put (g := { f with labels := f.labels.push .pending }) hf rfl rfl
      (hsize ▸ Nat.le_succ _) (fun x hx => ?_) fun l hl => ?_
    · show _ < (f.labels.push .pending).size
      rw [hsize]
      rcases List.mem_cons.1 hx with rfl | hx
      · exact Nat.lt_succ_self _
      · exact Nat.lt_succ_of_lt (hexits x hx)
    · exact hsize ▸ Nat.lt_succ_of_lt (hcontinues l hl)
  | @resolveExit n e f x xs labels _ hf hx hl ih =>
    obtain ⟨-, hexits, hcontinues⟩ := ih.congr hf
    have hsize := LabelTable.size_of_resolve hl
    refine ih.put (g := { f with labels := labels }) hf rfl rfl hsize.ge (fun y hy => ?_) fun l hl => ?_
    · exact hsize ▸ hexits y (hx ▸ List.mem_cons_of_mem x hy)
    · exact hsize ▸ hcontinues l hl
  | pushContinue _ hf hl ih =>
    obtain ⟨hwired, hexits, hcontinues⟩ := ih.congr hf
    exact ⟨⟨_, hf, hwired, hexits, List.forall_mem_cons.2 ⟨hl, hcontinues⟩⟩, ih.others⟩
  | @popContinue n e f l ls _ hf hl ih =>
    obtain ⟨hwired, hexits, hcontinues⟩ := ih.congr hf
    refine ⟨⟨_, hf, hwired, hexits, fun k hk => ?_⟩, ih.others⟩
    exact hcontinues k (hl ▸ List.mem_cons_of_mem l hk)
  | sign _ hf hname hcode hlabels hvoid hdefined ih =>
    obtain ⟨-, hexits, hcontinues⟩ := ih.congr hf
    rw [← hlabels] at hexits hcontinues
    exact ih.put hf hname hcode (by rw [hlabels]) hexits hcontinues
  | finish _ hf _ hexits hcontinues hP ih =>
    exact ih.finish (by split <;> rfl) hexits hcontinues hP
  | begins _ he ih => exact he.wired ih

end Draft

/-! ## Whole texts -/

namespace Compile

variable {p : Pass}

theorem wired_commit (h : p.draft.Wired 0) :
    Draft.Wired (Session.draft p.toSession.commit) 0 := by
  unfold Session.commit
  split <;> exact ⟨h.function, h.others⟩

theorem chunk_wired (h : p.Steady False) (heof : p.token.kind ≠ .eof) (hw : p.draft.Wired 0) :
    Ensures chunk p (fun _ q => q.draft.Wired 0) (fun _ _ => True) := by
  refine (chunk_keeps (I := (·.Wired 0)) (J := fun _ => True) (fun _ d e hd hde => hde.wired hd)
    (fun _ _ _ _ _ _ => trivial) (fun q _ _ hq => ⟨hq.function, hq.others⟩) h heof hw).mono ?_ ?_
  · exact fun _ _ => id
  · exact fun _ _ _ => trivial

/-- Behind the end of the input nothing is open. -/
theorem inputEnd_wired (h : p.Steady False) (heof : p.token.kind ≠ .eof) (hw : p.draft.Wired 0) :
    Ensures inputEnd p (fun _ q => q.draft.Wired 0 ∧ q.blocks.isIdle = true)
      (fun _ _ => True) := by
  refine ((inputEnd_edits (fun _ => False) h heof).and (inputEnd_holds h heof)).mono ?_ fun _ _ _ => trivial
  rintro - q ⟨⟨-, hedits⟩, -, hidle⟩
  exact ⟨hedits.wired hw, hidle⟩

end Compile

/-- An instruction that is read was written, and its operands are read modulo `wordBound`. -/
theorem Code.mem_located {i : Instruction} {is : List Command} {offset : Nat}
    (h : i ∈ located offset is) :
    ∃ c ∈ is, i.op = c.1 ∧ i.operands = c.2.map (· % wordBound) := by
  induction is generalizing offset with
  | nil => cases h
  | cons c is ih =>
    rcases List.mem_cons.1 h with rfl | h
    · exact ⟨c, List.mem_cons_self, rfl, rfl⟩
    · obtain ⟨c', hc', hi⟩ := ih h
      exact ⟨c', List.mem_cons_of_mem c hc', hi⟩

/-- Every jump names a label that lies where an instruction starts or at the end of the code, apart
from jumps to the labels `owed`, which are pending. -/
def Function.Linkable (f : Function) (owed : List Nat) : Prop :=
  ∀ i ∈ f.code.instructions, i.op.isJump = true → ∃ l, i.operands = [l] ∧
    ((∃ offset, f.labels.get? l = some (.known offset) ∧
      (offset ∈ f.code.instructions.map (·.offset) ∨ offset = f.code.size)) ∨
    (l ∈ owed ∧ f.labels.get? l = some .pending))

/-- The labels of the function `id` that open blocks keep for their ends. -/
def Session.owed (s : Session) (id : Nat) : List Nat :=
  if id = s.target then s.exits.map (·.label) else []

/-- Where all labels that jumps name have been made, only the ends of open blocks are missing. -/
theorem Session.linkable {s : Session} (h : s.Consistent False) (hw : s.draft.Wired 0) {id : Nat}
    {f : Function} (hf : s.program.function? id = some f) : f.Linkable (s.owed id) := by
  have hwired : f.Wired 0 := by
    by_cases hid : id = s.target
    · subst hid
      exact (hw.congr hf).1
    · exact hw.others id f hid hf
  obtain ⟨is, his, hjumps⟩ := hwired
  intro i hi hjump
  rw [his.instructions_eq] at hi
  obtain ⟨⟨op, operands⟩, hmem, hop, hoperands⟩ := Code.mem_located hi
  rw [hop] at hjump
  have hcount : operands.length = op.operandCount := Code.Writes.operands_length his _ hmem
  have hone : op.operandCount = 1 := by cases op <;> first | rfl | cases hjump
  obtain ⟨l, rfl⟩ := List.length_eq_one_iff.1 (hcount.trans hone)
  refine ⟨l % wordBound, hoperands, ?_⟩
  have hlt : l % wordBound < f.labels.size := by
    have hl := hjumps _ hmem hjump l (List.mem_singleton_self l)
    rw [Nat.zero_max] at hl
    exact Nat.lt_of_le_of_lt (Nat.mod_le l wordBound) hl
  have hget : f.labels.get? (l % wordBound) = some f.labels.labels[l % wordBound] :=
    Array.getElem?_eq_getElem hlt
  cases hlabel : f.labels.labels[l % wordBound] with
  | known offset =>
    rw [hlabel] at hget
    exact .inl ⟨offset, hget, h.bookkeeping.known id f hf _ offset hget⟩
  | pending =>
    rw [hlabel] at hget
    obtain ⟨hid, hmem⟩ := (h.bookkeeping.pending id f hf _).1 hget
    rw [Session.owed, if_pos hid]
    exact .inr ⟨hmem, hget⟩

namespace Session

variable {s : Session} {m : Function}

theorem wired_new (options : Options) : (new options).draft.Wired 0 := by
  refine ⟨⟨_, rfl, Function.wired_of_empty rfl, nofun, nofun⟩, fun i g hi hg => ?_⟩
  rcases i with _ | _ | i
  · exact absurd rfl hi
  · cases hg
    exact Function.wired_of_empty rfl
  · simp [draft, new, Program.new, Store.new, Program.function?] at hg

theorem wired_compile (h : s.Tracks m) (hw : s.draft.Wired 0) {text : String} {status : Status}
    (hok : (s.compile text).1 = .ok status) : (s.compile text).2.draft.Wired 0 := by
  have hchunk := Compile.chunk_wired (h.steady text) (by simp [Pass.start]) hw
  rcases compile_cases h.consistent False.elim with ⟨_, q, hm, heq⟩ | ⟨d, q, -, -, heq⟩ <;>
    rw [heq] at hok ⊢
  · exact hchunk.ok hm
  · cases hok

/-- At the end of the input nothing is open. -/
theorem wired_finish (h : s.Tracks m) (hw : s.draft.Wired 0) (hok : s.finish.1 = .ok ()) :
    s.finish.2.draft.Wired 0 ∧ s.finish.2.exits = [] := by
  have hend := Compile.inputEnd_wired (h.steady "") (by simp [Pass.start]) hw
  have hconsistent := consistent_finish h.consistent
  rcases finish_cases h.consistent with ⟨q, hm, heq⟩ | ⟨d, q, -, -, heq⟩ <;>
    rw [heq] at hok hconsistent ⊢
  · obtain ⟨hq, hidle⟩ := hend.ok hm
    refine ⟨Compile.wired_commit hq, (hconsistent.balanced.of_isIdle ?_).1⟩
    show q.commit.blocks.isIdle = true
    rw [Compile.blocks_commit, hidle]
  · cases hok

theorem linkable_finish (h : s.Tracks m) (hw : s.draft.Wired 0) {P : Program}
    (hP : (match s.finish with
      | (.error e, _) => Except.error e
      | (.ok (), t) => .ok t.program) = .ok P) {id : Nat} {f : Function}
    (hf : P.function? id = some f) : f.Linkable [] := by
  have hconsistent := consistent_finish h.consistent
  have hfinish := wired_finish h hw
  rcases hs : s.finish with ⟨e | _, t⟩
  · rw [hs] at hP
    cases hP
  · rw [hs] at hP hconsistent hfinish
    cases hP
    obtain ⟨hwired, hexits⟩ := hfinish rfl
    have hlinkable := linkable hconsistent hwired hf
    have howed : Session.owed t id = [] := by
      rw [owed, show t.exits = [] from hexits]
      split <;> rfl
    rwa [howed] at hlinkable

end Session

namespace Program

/-- The labels of the function `id` at the ends of the blocks that are open when `quit` ends the
text. If the text has no `quit`, or if it stands outside all blocks, there are none. -/
def owedAtQuit (source : String) (options : Options) (id : Nat) : List Nat :=
  match (Session.new options).compile source with
  | (.ok .quit, s) => s.owed id
  | _ => []

/-- **A whole text compiles to a program that can be linked**, apart from the jumps to the ends of
blocks that a `quit` leaves open. -/
theorem ofSource_linkable {source : String} {options : Options} {P : Program}
    (h : ofSource source options = .ok P) {id : Nat} {f : Function}
    (hf : P.function? id = some f) : f.Linkable (owedAtQuit source options id) := by
  have hnew : (Session.new options).History (fun _ => True) _ := .new options
  have hwired := Session.wired_new options
  have hs := (Session.tracks_compile hnew.tracks source).1
  unfold ofSource at h
  unfold owedAtQuit
  rcases hc : (Session.new options).compile source with ⟨e | status, s⟩
  · rw [hc] at h
    cases h
  · have hok : ((Session.new options).compile source).1 = .ok status := by rw [hc]
    have hw := Session.wired_compile hnew.tracks hwired hok
    rw [hc] at h hs hw
    cases status with
    | quit =>
      cases h
      exact Session.linkable hs.consistent hw hf
    | ready | incomplete => exact Session.linkable_finish hs hw h hf

/-- A `quit` inside an `else` inside a loop, with jumps out of the loop and back. -/
def quitInLoop : String :=
  "define f(n) \x7b\nfor (;;) \x7b\nif (n > 9) break\nif (n % 2) continue\nelse quit\n"

theorem quitInLoop_linkable :
    ∃ P f, ofSource quitInLoop {} = .ok P ∧ P.function? 2 = some f ∧
      f.code.instructions.countP (·.op.isJump) = 8 ∧ owedAtQuit quitInLoop {} 2 = [6, 3] ∧
      f.Linkable (owedAtQuit quitInLoop {} 2) := by
  have hcount : (((ofSource quitInLoop {}).toOption.bind (·.function? 2)).map
      (·.code.instructions.countP (·.op.isJump))) = some 8 := by decide +kernel
  have howed : owedAtQuit quitInLoop {} 2 = [6, 3] := by decide +kernel
  obtain ⟨f, hf, hcount⟩ := Option.map_eq_some_iff.1 hcount
  obtain ⟨P, hP, hf⟩ := Option.bind_eq_some_iff.1 hf
  cases hsource : ofSource quitInLoop {} with
  | error e =>
    rw [hsource] at hP
    cases hP
  | ok P' =>
    rw [hsource] at hP
    cases hP
    exact ⟨_, f, rfl, hf, hcount, howed, ofSource_linkable hsource hf⟩

/-- The jump over the body of an `if` leads nowhere if the body is `quit`. -/
theorem quitInIf_unlinked :
    ∃ P, ofSource "if (1) quit\n" {} = .ok P ∧ ¬ P.main.Linkable [] := by
  have hmain : (ofSource "if (1) quit\n" {}).toOption.map
      (fun P => (P.main.code.instructions.getLast?, P.main.labels.get? 0)) =
      some (some ⟨1, .jumpZero, [0]⟩, some .pending) := by decide +kernel
  obtain ⟨P, hP, hmain⟩ := Option.map_eq_some_iff.1 hmain
  cases hsource : ofSource "if (1) quit\n" {} with
  | error e =>
    rw [hsource] at hP
    cases hP
  | ok P' =>
    rw [hsource] at hP
    cases hP
    simp only [Prod.mk.injEq] at hmain
    refine ⟨_, rfl, fun hlinkable => ?_⟩
    obtain ⟨l, hl, hknown | howed⟩ := hlinkable _ (List.mem_of_getLast? hmain.1) rfl
    · cases hl
      obtain ⟨offset, hoffset, -⟩ := hknown
      rw [hmain.2] at hoffset
      cases hoffset
    · cases howed.1

end Program

end DeskCalc
