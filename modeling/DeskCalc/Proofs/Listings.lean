import DeskCalc.Listing
import DeskCalc.Proofs.Operands.Sessions

/-!
# The lines of a listing

A listing is a head, a line for each instruction, and a line for each label that is known, right
before the instruction it points at or at the end (`Listing.Shows`). That these are all its lines
rests on three facts: no text that is shown has the end of a line in it, the offsets of instructions
are all different, and a label that is known points at one of them or at the end of the code.
-/

namespace DeskCalc

namespace Text

/-- The character ends no line. -/
def isInline (c : Char) : Bool := c != '\n' && c != '\r'

/-- There is no end of a line in the text. -/
def isLine (text : String) : Bool := text.toList.all isInline

@[simp] theorem isLine_append (a b : String) : isLine (a ++ b) = (isLine a && isLine b) := by
  simp [isLine]

@[simp] theorem isLine_ofList (cs : List Char) : isLine (String.ofList cs) = cs.all isInline := by
  rw [isLine, String.toList_ofList]

theorem all_toDigits {base : Nat} (hpos : 0 < base) (hbase : base ≤ 16) (n : Nat) :
    (Nat.toDigits base n).all isInline = true := by
  have hdigit : ∀ k < 16, isInline (Nat.digitChar k) = true := by decide
  have hcore (fuel n : Nat) (ds : List Char) (hds : ds.all isInline = true) :
      (Nat.toDigitsCore base fuel n ds).all isInline = true := by
    induction fuel generalizing n ds with
    | zero => exact hds
    | succ fuel ih =>
      have hlt : n % base < 16 := Nat.lt_of_lt_of_le (Nat.mod_lt n hpos) hbase
      have hnext : ((n % base).digitChar :: ds).all isInline = true := by simp [hdigit _ hlt, hds]
      unfold Nat.toDigitsCore
      dsimp only
      split
      · exact hnext
      · exact ih _ _ hnext
  exact hcore _ _ [] rfl

@[simp] theorem isLine_toString (n : Nat) : isLine (toString n) = true := by
  rw [Nat.toString_eq_repr, Nat.repr_eq_ofList_toDigits, isLine_ofList]
  exact all_toDigits (by decide) (by decide) n

/-- **A quoted text stays on its line**, whatever is quoted. -/
@[simp] theorem isLine_quote (text : String) : isLine (quote text) = true := by
  have hescape (c : Char) : (escape c).all isInline = true := by
    unfold escape
    repeat' split
    all_goals try rfl
    · have hdigits := all_toDigits (by decide : 0 < 16) (Nat.le_refl 16) c.toNat
      rw [codePoint, List.all_append, List.all_append, hdigits]
      rfl
    · simp_all [isInline]
  rw [quote, isLine_ofList, List.all_append, List.all_cons, List.all_flatMap]
  simp [hescape]
  rfl

theorem isLine_of_isName {name : String} (h : IsName name) : isLine name = true := by
  obtain ⟨c, cs, rfl, hc, hcs⟩ := h
  have hchar (d : Char) (hd : Scan.isNameChar d = true) : isInline d = true := by
    simp only [isInline, Bool.and_eq_true, bne_iff_ne]
    refine ⟨?_, ?_⟩ <;> rintro rfl <;> cases hd
  have hfirst : isInline c = true := hchar c (by simp [Scan.isNameChar, hc])
  rw [isLine_ofList, List.all_cons, hfirst, Bool.true_and, List.all_eq_true]
  exact fun d hd => hchar d (hcs d hd)

theorem dropReturn_of_all {cs : List Char} (h : cs.all isInline = true) : dropReturn cs = cs := by
  unfold dropReturn
  split
  · cases h
  · rfl

/-- Lines that are put together are found again. -/
theorem lines_join {ls : List String} (h : ∀ l ∈ ls, isLine l = true) :
    lines (String.join (ls.map (· ++ "\n"))) = ls := by
  induction ls with
  | nil => rfl
  | cons l ls ih =>
    have hl : l.toList.all isInline = true := h l (by simp)
    have hfeed : '\n' ∉ l.toList := fun hmem => by cases List.all_eq_true.1 hl _ hmem
    have hrest := ih fun l' hl' => h l' (by simp [hl'])
    rw [lines, String.toList_join] at hrest ⊢
    rw [List.map_cons, List.flatMap_cons, String.toList_append, List.append_assoc,
      linesFrom_append hfeed, List.append_nil]
    change String.ofList (dropReturn l.toList.reverse).reverse ::
      (linesFrom (List.flatMap String.toList _) []).map String.ofList = _
    rw [hrest, dropReturn_of_all (by rwa [List.all_reverse]), List.reverse_reverse,
      String.ofList_toList]

end Text

/-- The labels that are known. -/
def Function.knownLabels (f : Function) : List Nat :=
  (List.range f.labels.size).filter (!f.labels.isPending ·)

theorem Function.mem_knownLabels {f : Function} {l : Nat} :
    l ∈ f.knownLabels ↔ ∃ offset, f.labels.get? l = some (.known offset) := by
  have hsize : l < f.labels.size ↔ f.labels.get? l ≠ none := by
    simp [LabelTable.size, LabelTable.get?]
  rw [knownLabels, List.mem_filter, List.mem_range, hsize, LabelTable.isPending]
  cases f.labels.get? l with
  | none => simp
  | some label => cases label <;> simp

namespace Listing

variable {P : Program} {f : Function}

theorem isLine_mnemonic (op : Opcode) : Text.isLine op.mnemonic = true := by
  have hall : Opcode.all.all (fun op => Text.isLine op.mnemonic) = true := by decide +kernel
  exact List.all_eq_true.1 hall op (List.mem_of_getElem? (Opcode.ofByte?_toByte op))

theorem isLine_nameOr {name : Option String}
    (h : ∀ text, name = some text → Text.isLine text = true) : Text.isLine (nameOr name) = true := by
  cases name with
  | none => rfl
  | some text => exact h text rfl

/-- The names of functions. -/
theorem isLine_name (hP : P.Valid) {id : Nat} (hf : P.function? id = some f) :
    Text.isLine f.name = true := by
  rcases id with _ | _ | id
  · cases hf
    rw [hP.names.1]
    rfl
  · cases hf
    rw [hP.names.2]
    rfl
  · exact Text.isLine_of_isName (hP.spelled.functions id f hf)

theorem isLine_operandText (hP : P.Valid) (i : Instruction) :
    Text.isLine (operandText P i) = true := by
  have hvar (k : Nat) : Text.isLine (nameOr (P.vars.get? k)) = true :=
    isLine_nameOr fun _ hname => Text.isLine_of_isName (hP.spelled.vars _ _ hname)
  have harray (k : Nat) : Text.isLine (nameOr (P.arrays.get? k)) = true :=
    isLine_nameOr fun _ hname => Text.isLine_of_isName (hP.spelled.arrays _ _ hname)
  have hcall (k : Nat) : Text.isLine (nameOr ((P.function? k).map (·.name))) = true := by
    refine isLine_nameOr fun _ hname => ?_
    obtain ⟨g, hg, rfl⟩ := Option.map_eq_some_iff.1 hname
    exact isLine_name hP hg
  unfold operandText
  dsimp only
  split
  case h_9 => rfl
  all_goals
    simp only [Text.isLine_append, Text.isLine_quote, Text.isLine_toString, hvar, harray, hcall]
    rfl

theorem isLine_padLeft (width : Nat) {fill : Char} (hfill : Text.isInline fill = true) (n : Nat) :
    Text.isLine (Text.padLeft width fill (toString n)) = true := by
  rw [Text.padLeft, Text.isLine_append, Text.isLine_toString, Text.isLine_ofList]
  simp [hfill]

/-! ## The order of lines -/

/-- A line behind the head. -/
inductive Line
  | marker (label : Nat)
  | instruction (i : Instruction)

namespace Line

/-- How the line is written. -/
def text (P : Program) (f : Function) : Line → String
  | marker label => s!"L{label}:"
  | instruction i => instructionLine P f i

def marker? : Line → Option Nat
  | marker label => some label
  | instruction _ => none

def instruction? : Line → Option Instruction
  | marker _ => none
  | instruction i => some i

@[simp] theorem marker?_comp_marker : marker? ∘ marker = some := rfl

@[simp] theorem instruction?_comp_marker : instruction? ∘ marker = fun _ => none := rfl

theorem isLine_text (hP : P.Valid) (f : Function) (l : Line) : Text.isLine (l.text P f) = true := by
  cases l with
  | marker label =>
    show Text.isLine ("L" ++ toString label ++ ":") = true
    simp only [Text.isLine_append, Text.isLine_toString]
    rfl
  | instruction i =>
    simp only [text, instructionLine, Text.isLine_append, isLine_mnemonic, isLine_operandText hP,
      isLine_padLeft 4 (show Text.isInline '0' = true from rfl),
      isLine_padLeft 4 (show Text.isInline ' ' = true from rfl)]
    rfl

/-- **The line of a label is told by its first character**: that of an instruction begins with its
offset. -/
theorem head?_text (P : Program) (f : Function) (l : Line) :
    (l.text P f).toList.head? = some 'L' ↔ l.marker?.isSome = true := by
  cases l with
  | marker label =>
    show ("L" ++ toString label ++ ":").toList.head? = _ ↔ _
    simp [marker?]
  | instruction i =>
    have hoffset : 'L' ∉ (Text.padLeft 4 '0' (toString i.offset)).toList := by
      rw [Text.padLeft, String.toList_append, String.toList_ofList, Nat.toString_eq_repr,
        Nat.repr_eq_ofList_toDigits, String.toList_ofList, List.mem_append, List.mem_replicate]
      rintro (⟨-, ⟨⟩⟩ | hdigit)
      cases Nat.isDigit_of_mem_toDigits (by decide) (by decide) hdigit
    simp only [text, instructionLine, String.toList_append, List.append_assoc, marker?]
    cases hfirst : (Text.padLeft 4 '0' (toString i.offset)).toList with
    | nil => simp
    | cons c cs =>
      rw [hfirst] at hoffset
      simpa using Ne.symm (List.ne_of_not_mem_cons hoffset)

end Line

/-- An instruction with the labels that point at it. -/
def withMarkers (f : Function) (i : Instruction) : List Line :=
  (labelsAt f i.offset).map .marker ++ [.instruction i]

/-- The lines behind the head. -/
def body (f : Function) : List Line :=
  f.code.instructions.flatMap (withMarkers f) ++ (labelsAt f f.code.size).map .marker

theorem functionLines_eq (P : Program) (f : Function) :
    functionLines P f = ("== " ++ f.name ++ " ==") :: (body f).map (Line.text P f) := by
  simp [functionLines, body, withMarkers, markers, List.map_flatMap, Line.text, Function.comp_def]

theorem mem_labelsAt {offset l : Nat} :
    l ∈ labelsAt f offset ↔ f.labels.get? l = some (.known offset) := by
  simp [labelsAt, List.mem_zipIdx_iff_getElem?, LabelTable.get?]

theorem pairwise_labelsAt (f : Function) (offset : Nat) : (labelsAt f offset).Pairwise (· < ·) := by
  have hsub : (labelsAt f offset).Sublist (f.labels.labels.toList.zipIdx.map (·.2)) :=
    List.Sublist.map _ List.filter_sublist
  rw [List.zipIdx_map_snd] at hsub
  exact (List.pairwise_lt_range' ..).sublist hsub

/-- The lines `ls` behind the head show the code and the labels of the function. -/
structure Shows (f : Function) (ls : List Line) : Prop where
  instructions : ls.filterMap Line.instruction? = f.code.instructions
  /-- A label that is known has one marker, and a label that is pending has none. -/
  markers : (ls.filterMap Line.marker?).Perm f.knownLabels
  /-- The markers of an offset stand in order right before its instruction, or at the end. -/
  placed : ∀ l offset, f.labels.get? l = some (.known offset) → ∃ before labels behind,
    ls = before ++ List.map .marker labels ++ behind ∧ labels.Pairwise (· < ·) ∧
    (∀ m, m ∈ labels ↔ f.labels.get? m = some (.known offset)) ∧
    (behind = [] ∧ offset = f.code.size ∨
      ∃ i after, behind = .instruction i :: after ∧ i.offset = offset)

/-- The listing of a function of `P` has a head and the lines that show the function, and no other
line. Those of labels are the ones that begin with an `L`. -/
def Lists (P : Program) (f : Function) : Prop :=
  ∃ ls, Text.lines (f.listing P) = ("== " ++ f.name ++ " ==") :: ls.map (Line.text P f) ∧
    Shows f ls ∧
    (∀ l ∈ ls, (l.text P f).toList.head? = some 'L' ↔ l.marker?.isSome = true) ∧
    (Text.lines (f.listing P)).length =
      1 + f.code.instructions.length + f.knownLabels.length

/-- Where lines stand, in the order of the code. -/
def offsets (f : Function) : List Nat := f.code.instructions.map (·.offset) ++ [f.code.size]

theorem markers_body (f : Function) :
    (body f).filterMap Line.marker? = (offsets f).flatMap (labelsAt f) := by
  simp [body, withMarkers, offsets, List.filterMap_append, List.filterMap_flatMap,
    List.filterMap_cons, Line.marker?, List.flatMap_map]

theorem instructions_body (f : Function) :
    (body f).filterMap Line.instruction? = f.code.instructions := by
  simp [body, withMarkers, List.filterMap_flatMap, Line.instruction?]

theorem length_lines (ls : List Line) :
    ls.length = (ls.filterMap Line.instruction?).length + (ls.filterMap Line.marker?).length := by
  induction ls with
  | nil => rfl
  | cons l ls ih =>
    cases l <;> simp [List.filterMap_cons, Line.instruction?, Line.marker?, ih] <;> omega

/-- Every instruction starts at an offset of its own, before the end of the code. -/
theorem pairwise_located (offset : Nat) (is : List Command) :
    (∀ k ∈ (Code.located offset is).map (·.offset) ++ [offset + (Code.encodeAll is).length],
      offset ≤ k) ∧
    ((Code.located offset is).map (·.offset) ++ [offset + (Code.encodeAll is).length]).Pairwise
      (· < ·) := by
  induction is generalizing offset with
  | nil => simp [Code.located]
  | cons i is ih =>
    obtain ⟨op, operands⟩ := i
    have hlen : 0 < (Code.encode op operands).length := by simp [Code.encode]
    obtain ⟨hle, hpairwise⟩ := ih (offset + (Code.encode op operands).length)
    rw [Code.encodeAll_cons, List.length_append, ← Nat.add_assoc]
    refine ⟨List.forall_mem_cons.2 ⟨Nat.le_refl _, fun k hk => ?_⟩, .cons (fun k hk => ?_) ‹_›⟩
    · exact Nat.le_trans (Nat.le_add_right ..) (hle k hk)
    · exact Nat.lt_of_lt_of_le (Nat.lt_add_of_pos_right hlen) (hle k hk)

theorem pairwise_offsets (h : P.Valid) {id : Nat} (hf : P.function? id = some f) :
    (offsets f).Pairwise (· < ·) := by
  obtain ⟨is, his⟩ := (h.provided id f hf).code
  have hall := (pairwise_located 0 is).2
  rwa [Nat.zero_add, ← his.instructions_eq, ← his.size_eq] at hall

theorem shows_body (h : (offsets f).Pairwise (· < ·))
    (hknown : ∀ l offset, f.labels.get? l = some (.known offset) → offset ∈ offsets f) :
    Shows f (body f) where
  instructions := instructions_body f
  markers := by
    have hnodup : ((offsets f).flatMap (labelsAt f)).Nodup := by
      refine List.nodup_flatMap.2 ⟨fun offset _ => ?_, h.imp fun hlt l hl hl' => ?_⟩
      · exact (pairwise_labelsAt f offset).imp Nat.ne_of_lt
      · have heq := (mem_labelsAt.1 hl).symm.trans (mem_labelsAt.1 hl')
        cases heq
        exact Nat.lt_irrefl _ hlt
    rw [markers_body]
    refine (List.perm_ext_iff_of_nodup hnodup (List.nodup_range.filter _)).2 fun l => ?_
    refine .trans ?_ Function.mem_knownLabels.symm
    rw [List.mem_flatMap]
    constructor
    · rintro ⟨offset, -, hl⟩
      exact ⟨offset, mem_labelsAt.1 hl⟩
    · rintro ⟨offset, hl⟩
      exact ⟨offset, hknown l offset hl, mem_labelsAt.2 hl⟩
  placed l offset hl := by
    rcases List.mem_append.1 (hknown l offset hl) with hmem | hend
    · obtain ⟨i, hi, rfl⟩ := List.mem_map.1 hmem
      obtain ⟨is, js, hsplit⟩ := List.append_of_mem hi
      have hbody : body f = is.flatMap (withMarkers f) ++ (labelsAt f i.offset).map .marker ++
          .instruction i ::
            (js.flatMap (withMarkers f) ++ (labelsAt f f.code.size).map .marker) := by
        simp [body, hsplit, withMarkers]
      exact ⟨_, _, _, hbody, pairwise_labelsAt f _, fun m => mem_labelsAt, .inr ⟨i, _, rfl, rfl⟩⟩
    · cases List.mem_singleton.1 hend
      exact ⟨_, labelsAt f f.code.size, [], by rw [body, List.append_nil], pairwise_labelsAt f _,
        fun m => mem_labelsAt, .inl ⟨rfl, rfl⟩⟩

end Listing

namespace Session

variable {s : Session} {texts : String → Prop}

/-- **A listing shows every jump target once.** This holds of all functions of a session that comes
out of a new one by calls, an answer inside a definition not among them, whatever texts their
constants are. -/
theorem leads_listed {options : Options} (hconstants : options.limits.constants ≤ wordBound)
    (hfunctions : options.limits.functions ≤ wordBound) (h : (new options).Leads texts s) {id : Nat}
    {f : Function} (hf : s.program.function? id = some f) : Listing.Lists s.program f := by
  obtain ⟨hvalid, -, m, htracks⟩ := leads_moored hconstants hfunctions h
  have hshows : Listing.Shows f (Listing.body f) := by
    refine Listing.shows_body (Listing.pairwise_offsets hvalid hf) fun l offset hl => ?_
    rw [Listing.offsets, List.mem_append, List.mem_singleton]
    exact htracks.consistent.bookkeeping.known id f hf l offset hl
  have hlines : Text.lines (f.listing s.program) =
      ("== " ++ f.name ++ " ==") :: (Listing.body f).map (Listing.Line.text s.program f) := by
    rw [Function.listing, Listing.functionLines_eq, Text.lines_join]
    refine List.forall_mem_cons.2 ⟨?_, fun l hl => ?_⟩
    · simp only [Text.isLine_append, Listing.isLine_name hvalid hf]
      rfl
    · obtain ⟨line, -, rfl⟩ := List.mem_map.1 hl
      exact line.isLine_text hvalid f
  refine ⟨_, hlines, hshows, fun l _ => l.head?_text s.program f, ?_⟩
  rw [hlines, List.length_cons, List.length_map, Listing.length_lines, hshows.instructions,
    hshows.markers.length_eq]
  omega

/-- A loop with a way out, and an output of two lines. -/
def loopCall : Call := .compile "while (x) \x7b\nprint \"a\nb\"\nif (x) break\n\x7d\n"

/-- The session after it. -/
def afterLoop : Session := (loopCall.run (new {})).2

theorem afterLoop_listed :
    (new {}).Leads (fun _ => True) afterLoop ∧ afterLoop.program.main.knownLabels.length = 3 ∧
      Listing.Lists afterLoop.program afterLoop.program.main := by
  have hleads : (new {}).Leads (fun _ => True) afterLoop :=
    .call .refl (show loopCall.Allowed _ _ from trivial)
  have hmain : afterLoop.program.function? Program.mainId = some afterLoop.program.main := rfl
  exact ⟨hleads, by decide +kernel, leads_listed (by decide) (by decide) hleads hmain⟩

end Session

end DeskCalc
