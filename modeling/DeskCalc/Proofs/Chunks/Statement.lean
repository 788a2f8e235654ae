import DeskCalc.Proofs.Chunks.Expression
import DeskCalc.Proofs.Statement.Parts

/-!
# Headers, jumps and definitions of two passes

The parts of a statement before its delimiter, except for what closes a body. None of them skips the
line feed at the end of the chunk: a header or a definition that is cut off there is refused, and the
others stop before it.
-/

namespace DeskCalc.Compile

open Pass

variable {α : Type} {T : Place → Place → Prop} {ws : List Sight} {l : Prop} {p P q Q : Pass}

/-! ## Blocks -/

theorem stays_openBrace (h : p.Along T P) : Stays T openBrace p openBrace P :=
  stays_modifyBlocks h _

theorem stays_closeBlock (h : p.Along T P) : Stays T closeBlock p closeBlock P :=
  stays_modifyBlocks h _

theorem stays_endIf (h : p.Along T P) : Stays T endIf p endIf P :=
  (stays_modifyBlocks h _).bind fun _ _ _ _ hq => stays_resolveExit hq

theorem stays_closeInnermost (h : p.Along T P) (braced : Bool) :
    Stays T (closeInnermost braced) p (closeInnermost braced) P := by
  have hclose {q Q : Pass} (hq : q.Along T Q) :
      Stays T (do resolveExit; closeBlock) q (do resolveExit; closeBlock) Q :=
    (stays_resolveExit hq).bind fun _ r R _ hr => stays_closeBlock hr
  unfold closeInnermost
  simp only [stays_topBlock, h.blocks]
  split
  · split
    · simp only [stays_get, h.continues]
      split
      · exact (stays_pure h ()).bind fun _ q Q _ hq => hclose hq
      · refine Stays.bind (stays_of_ok rfl rfl rfl { h with continues := rfl }) fun _ q Q _ hq => ?_
        exact (stays_emitWith hq _ _).bind fun _ r R _ hr => hclose hr
    · exact (stays_pure h ()).bind fun _ q Q _ hq => hclose hq
  split
  · refine stays_function h fun f F hF => ?_
    have hvoid : F.isVoid = f.isVoid := (Function.mk.inj hF).2.2.2.2.2.1
    rw [hvoid]
    refine (stays_emit h _).bind fun _ q Q _ hq => ?_
    refine Stays.bind (stays_of_ok rfl rfl rfl { hq with target := rfl }) fun _ r R _ hr => ?_
    exact stays_closeBlock hr
  split
  · exact stays_closeBlock h
  · exact stays_pure h ()

/-- Writing an instruction changes the program only. -/
theorem emitWith_changes {op : Opcode} {operands : List Nat} : Ensures (emitWith op operands) p
    (fun _ q => ∃ program, q = { p with program := program }) fun e _ => ¬e.IsRefusal := by
  simp only [emitWith, modifyFunction, ensures_bind, ensures_here, ensures_get, ensures_ite,
    ensures_set, ensures_throw]
  split
  · exact ⟨_, rfl⟩
  · exact not_isRefusal_fault _

/-! ## Both passes -/

theorem stays_set {r R : Pass} (h : r.Along T R) (hs : r.sights = p.sights) :
    Stays T (set r) p (set R) P := stays_of_ok rfl rfl hs h

instance moves_chunkwise : Moves (chunkwise ws) where
  Twin f F := F.unlined = f.unlined
  twin := id
  anyReads := rfl
  frame h := ⟨h.blocks, h.exits, h.continues⟩
  fault _ _ := (stops_throw _).nears
  function {α p P m M} h hm := by
    obtain hstop | ⟨f, F, hp, hP, heq⟩ := function_cases h.toAlike
    · exact hstop.bind.nears
    · have hf : p.program.function? p.target = some f := by
        have hself : Accepts function p fun f _ => p.program.function? p.target = some f := by
          simp only [Accepts, function, ensures_bind, ensures_get]
          split
          · next hf => exact hf
          · trivial
        exact hself.ok hp
      change Nears ws _ p _ P
      unfold Nears
      rw [bind_of_ok hp, bind_of_ok hP]
      exact hm f F hf heq
  jump h _ _ _ := (stays_emitWith h _ _).nears
  relabel {p P f F} h _ hF labels := by
    refine (stays_putFunction h ?_).nears
    simp only [Function.unlined, Function.mk.injEq] at hF ⊢
    simp [hF]
  exits h _ := Stays.nears (stays_set { h with exits := rfl } rfl)
  continues h _ := Stays.nears (stays_set { h with continues := rfl } rfl)

/-- What moves no pass. -/
theorem fine_of_stays {m : Compile α}
    (h : ∀ {p P : Pass}, p.Along (Place.Near ws) P → Stays (Place.Near ws) m p m P) :
    Fine (chunkwise ws) m := ⟨fun _ _ hp => (h hp).nears⟩

instance shifts_chunkwise : Shifts (chunkwise ws) where
  shift _ := fine_of_stays fun h => stays_modifyBlocks h _

instance chunkwise_returnValue : Fine (chunkwise ws) returnValue :=
  fine_returnValue fun op _ => fine_of_stays fun h => stays_emit h op

theorem stays_declareLocal (h : p.Along T P) {t t' : Token} (ht : t'.text = t.text)
    (localKind : LocalKind) :
    Stays T (declareLocal t localKind) p (declareLocal t' localKind) P := by
  rw [declareLocal, declareLocal, ht, TableEntry.enter_ofLocal, TableEntry.enter_ofLocal]
  refine (stays_intern h (TableEntry.interns _ _ _)).bind fun index q Q _ hq => ?_
  refine stays_function hq fun f F hF => ?_
  have hinsert : (F.insertLocal? ⟨index, localKind⟩).map Function.unlined =
      (f.insertLocal? ⟨index, localKind⟩).map Function.unlined := by
    rw [← Function.insertLocal?_unlined, hF, Function.insertLocal?_unlined]
  cases hf : f.insertLocal? ⟨index, localKind⟩ with
  | none =>
    exact stops_refuse.stays
  | some g =>
    rw [hf, Option.map_some, Option.map_eq_some_iff] at hinsert
    obtain ⟨G, hG, heq⟩ := hinsert
    rw [hG]
    exact stays_putFunction hq heq

instance declares_chunkwise : Declares (chunkwise ws) where
  declare _ htext _ localKind := ⟨fun _ _ h => (stays_declareLocal h htext localKind).nears⟩
  count := fine_of_stays fun h => stays_modifyFunction h fun f F hF => by
    simp only [Function.unlined, Function.mk.injEq] at hF ⊢
    simp [hF]

instance chunkwise_define : Fine (chunkwise ws) define := by
  refine fine_define (fun id => fine_of_stays fun h => ?_) (fun isVoid => fine_of_stays fun h => ?_)
    (fine_of_stays fun h => stays_modifyBlocks h _) (fine_of_stays fun h => ?_)
  · exact stays_modify { h with target := rfl } rfl
  · refine stays_modifyFunction h fun f F hF => ?_
    simp only [Function.unlined, Function.mk.injEq, Function.clear] at hF ⊢
    simp [hF]
  · refine stays_modifyFunction h fun f F hF => ?_
    simp only [Function.unlined, Function.mk.injEq] at hF ⊢
    simp [hF]

instance chunkwise_autoDecl : Fine (chunkwise ws) autoDecl where
  out p P h := by
    have hforbid : Fine (chunkwise ws) (modify fun p => { p with autoAllowed := false }) :=
      fine_of_stays fun h => stays_modify { h with autoAllowed := id } rfl
    refine (chunkwise ws).get ?_
    split
    · next hauto =>
      rw [if_pos (h.autoAllowed hauto)]
      exact (chunkwise ws).run h
    · exact stops_refuseHere.nears

/-! ## The last token -/

instance lasts_elseBranch : Lasts AtWord elseBranch := by
  refine lasts_quiet (h := fun top => ?_)
  split
  · refine lasts_quiet (h := fun label => lasts_quiet (h := fun _ => ?_))
    infer_instance
  · infer_instance

instance caps_closingBrace : Caps closingBrace := by
  unfold closingBrace
  infer_instance

instance caps_ifHeader : Caps ifHeader := by
  refine caps_then (h := fun _ => caps_then (h := fun _ => caps_then (h := fun _ => ?_)))
  infer_instance

instance caps_whileHeader : Caps whileHeader := by
  refine caps_then (h := fun _ => caps_then (h := fun _ => caps_then (h := fun _ => ?_)))
  refine caps_then (h := fun _ => caps_then (h := fun _ => ?_))
  infer_instance

instance lasts_leaveLoop (label : Option Nat) (outside : Cause) :
    Lasts AtWord (leaveLoop label outside) := by
  unfold leaveLoop
  cases label <;> infer_instance

instance lasts_breakLoop : Lasts AtWord breakLoop := by
  unfold breakLoop
  infer_instance

instance lasts_continueLoop : Lasts AtWord continueLoop := by
  unfold continueLoop
  infer_instance

instance caps_forHeader : Caps forHeader := by
  refine caps_then (h := fun _ => caps_then (h := fun _ => caps_then (h := fun _ => ?_)))
  refine caps_then (h := fun _ => caps_then (h := fun _ => caps_then (h := fun _ => ?_)))
  refine caps_then (h := fun _ => caps_then (h := fun _ => caps_then (h := fun _ => ?_)))
  refine caps_then (h := fun _ => caps_then (h := fun _ => caps_then (h := fun _ => ?_)))
  refine caps_then (h := fun _ => caps_then (h := fun _ => ?_))
  infer_instance

instance lasts_returnValue : Lasts AtWord returnValue := by
  have hvalue : Caps (expressionOrEmpty { needsValue := true } Ends.statement) :=
    caps_expressionOrEmpty rfl
  have hback (op : Opcode) (span : Span) (paren : Bool) (outcome : Outcome) :
      Lasts Capped (returned op span paren outcome) := by
    cases outcome <;> unfold returned <;> infer_instance
  refine lasts_quiet (h := fun top => ?_)
  split
  · refine lasts_quiet (h := fun f => lasts_quiet (h := fun span => ?_))
    infer_instance
  · infer_instance

/-- A loop none of whose rounds ends behind a line feed. -/
theorem lasts_perToken {β : Type} {step : α → Compile (α ⊕ β)} (h : ∀ a, Lasts Capped (step a))
    (a : α) : Lasts Capped (perToken step a) where
  lasts p hp := accepts_perToken (fun _ p => p.Capped)
    (fun a p hp => ((h a).lasts p hp).imp fun r _ hr => by cases r <;> exact hr) hp

instance lasts_printItems (op : Opcode) : Lasts AtWord (printItems op) := by
  have hvalue : Caps (expression { needsValue := true } Ends.printItem) := caps_expression rfl
  have hnext : Lasts Capped (printNext op) := by
    unfold printNext
    infer_instance
  have hitem (u : Unit) : Lasts Capped (printStep op u) :=
    lasts_isAt ⟨nofun, nofun⟩ lasts_bind lasts_bind
  have hitems := lasts_perToken hitem ()
  unfold printItems
  infer_instance

instance caps_define : Caps define := by
  have hbody : Lasts AtWord openFunction := by
    unfold openFunction
    infer_instance
  have hparameters : Caps (do
      parameters
      openFunction) := by
    refine ⟨fun p _ => (ensures_self parameters).bind (fun _ q hq => ?_) fun _ _ _ => trivial⟩
    have hk := kind_of_parameters hq
    exact hbody.lasts q ⟨by simp [hk], by simp [hk]⟩
  dsimp only [define]
  infer_instance

instance lasts_autoDecl : Lasts AtWord autoDecl := by
  have hforbid : Quiet (modify fun p => { p with autoAllowed := false }) :=
    quiet_modify fun _ => ⟨rfl, rfl⟩
  have hlocals : Lasts Capped (perToken autoStep (0, false)) := by
    refine lasts_perToken (fun (count, comma) => ⟨fun p hp => ?_⟩) _
    change Accepts (if p.token.kind = .name then _ else _) p _
    split
    · next hk =>
      have hlocal : Lasts AtWord (do
          advance
          let isArray ← arrayMark
          let comma ← commaMark
          declareLocal p.token (if isArray then .array else .scalar)
          pure (.inl (count + 1, comma) : (Nat × Bool) ⊕ (Nat × Bool))) := by
        unfold arrayMark commaMark
        infer_instance
      split
      · exact (caps_refuseHere _).lasts p trivial
      · exact hlocal.lasts p ⟨by simp [hk], by simp [hk]⟩
    · exact hp
  have hend (state : Nat × Bool) : Lasts Capped (match state with
      | (count, comma) =>
        if comma then refuseHere .invalidFunction
        else if count = 0 then refuseHere .emptyAuto
        else do
          if ← atDelimiter then pure ()
          else unexpected) := by
    split
    infer_instance
  rw [autoDecl]
  infer_instance

/-- The end of a chunk is no name of a function. -/
theorem stops_functionName (h : p.AtEnd) : Stops functionName p := by
  change Stops (if p.token.kind = .name then _ else _) p
  rw [if_neg (by simp [h.kind])]
  exact stops_refuseHere

end DeskCalc.Compile
