import ProgramSlicer.Sdg

/-!
What each function of `SDG::runOnModule` has done when it comes through, said
once. The later modules take a run apart with these lemmas only.
-/
namespace ProgramSlicer.SDG
open FoldRules
variable {A : Analyses} {M : Module} {s s' : SDG}

/-! ### Step 1 -/

theorem controlPred_entry {D : BasicBlock} (run : controlPred M D s none = some s') :
    s' = controlBlock (.entry D.parent) D { s with
      entryNodeMap := s.entryNodeMap.insert D.parent ⟨.entry, some (.func D.parent)⟩ } :=
  (Option.some.inj run).symm

theorem controlPred_block {D : BasicBlock} {S : BlockId}
    (run : controlPred M D s (some S) = some s') :
    ∃ B T, M.block? S = some B ∧ B.getTerminator = some T ∧
      s' = controlBlock (.inst T.id) D (s.insertInst T.id) := by
  obtain ⟨B, block, rest⟩ := bind_some run
  obtain ⟨T, term, last⟩ := bind_some rest
  exact ⟨B, T, block, term, (Option.some.inj last).symm⟩

theorem controlNode_cases {g : CDG.Graph} {n : Option BlockId}
    (run : controlNode M g s n = some s') :
    (n = none ∧ s' = s) ∨ ∃ D ∈ M.blocks, n = some D.id ∧
      ((g.getPredSet (some D.id)).map Prod.fst).foldlM (controlPred M D) s = some s' := by
  cases n with
  | none => exact .inl ⟨rfl, (Option.some.inj run).symm⟩
  | some b =>
    obtain ⟨D, block, preds⟩ := bind_some run
    obtain ⟨hD, same⟩ := block_lookup.mp block
    rw [← same] at preds ⊢
    exact .inr ⟨D, hD, rfl, preds⟩

theorem controlNodes_keep {P : SDG → Prop} {g : CDG.Graph} {l : List (Option BlockId)}
    (step : ∀ D ∈ M.blocks, ∀ pred t t', controlPred M D t pred = some t' → P t → P t')
    (run : l.foldlM (controlNode M g) s = some s') (start : P s) : P s' := by
  refine foldlM_keeps (P := P) ?_ run start
  intro n _ t t' one before
  rcases controlNode_cases one with ⟨_, same⟩ | ⟨D, hD, _, preds⟩
  · exact same ▸ before
  · exact foldlM_keeps (fun pred _ => step D hD pred) preds before

theorem stepOne_cases {F : Function} (run : stepOne A M s F = some s') :
    (F.isDeclaration = true ∧ s' = s) ∨ (F.isDeclaration = false ∧ ∃ cdg t,
      CDG.runOnFunction (A.pdt F.id) F s.cdg = some cdg ∧
      cdg.getNodeSet.foldlM (controlNode M cdg) { s with cdg } = some t ∧ s' = calleeAux F t) := by
  unfold stepOne at run
  split at run
  · rename_i declared
    exact .inl ⟨declared, (Option.some.inj run).symm⟩
  · rename_i defined
    obtain ⟨cdg, analysed, rest⟩ := bind_some run
    obtain ⟨t, nodes, last⟩ := bind_some rest
    exact .inr ⟨by simpa using defined, cdg, t, analysed, nodes, (Option.some.inj last).symm⟩

/-! ### Step 2 -/

structure CallTo (M : Module) (I : Instruction) (F : Function) : Prop where
  isCall : I.opcode = .call
  callee : I.getCalledFunction = some F.id
  inModule : F ∈ M.functions
  defined : F.isDeclaration = false

theorem callTo_unique {I : Instruction} {F G : Function} (hF : CallTo M I F)
    (hG : CallTo M I G) : F = G := by
  have same := hF.callee.symm.trans hG.callee
  exact function_eq hF.inModule hG.inModule (Option.some.inj same)

theorem callerInputs_keep {P : SDG → Prop} {ci : InstId} {vs : List Value} {formals : List ArgId}
    (step : ∀ v a t, a ∈ formals → P t → P (callerInput ci v a t))
    (run : callerInputs ci vs formals s = some s') (start : P s) : P s' := by
  induction vs generalizing formals s with
  | nil => exact Option.some.inj run ▸ start
  | cons v vs ih =>
    cases formals with
    | nil => simp [callerInputs] at run
    | cons a formals =>
      have next := step v a s (by simp) start
      exact ih (fun w b t mem => step w b t (by simp [mem])) run next

theorem connectCall_cases {I : Instruction} {F : Function} (run : connectCall I F s = some s') :
    hasValue (s.instNodeMap.index I.id) I.id = true ∧
    hasValue (s.entryNodeMap.index F.id) F.id = true ∧
    ∃ t, callerInputs I.id I.argOperands F.args (link { s with
        instNodeMap := s.instNodeMap.index I.id
        entryNodeMap := s.entryNodeMap.index F.id } (.inst I.id) (.entry F.id) EdgeAttr.call) =
      some t ∧ s' = callerOutput I.id F.id t := by
  simp only [connectCall] at run
  split at run
  · rename_i values
    rw [Bool.and_eq_true] at values
    obtain ⟨t, inputs, last⟩ := bind_some run
    exact ⟨values.1, values.2, t, inputs, (Option.some.inj last).symm⟩
  · cases run

theorem stepTwo_cases {I : Instruction} (run : stepTwo M s I = some s') :
    (s' = s ∧ ∀ F, ¬ CallTo M I F) ∨ ∃ F, CallTo M I F ∧ connectCall I F s = some s' := by
  unfold stepTwo at run
  split at run
  · rename_i isCall
    obtain ⟨f, callee, rest⟩ := bind_some run
    obtain ⟨CF, found, body⟩ := bind_some rest
    obtain ⟨inM, rfl⟩ := function_lookup.mp found
    split at body
    · rename_i declared
      refine .inl ⟨(Option.some.inj body).symm, ?_⟩
      intro F call
      have same := function_eq call.inModule inM
        (Option.some.inj (call.callee.symm.trans callee))
      rw [← same, call.defined] at declared
      cases declared
    · rename_i defined
      exact .inr ⟨CF, ⟨isCall, callee, inM, by simpa using defined⟩, body⟩
  · rename_i notCall
    exact .inl ⟨(Option.some.inj run).symm, fun F call => notCall call.isCall⟩

/-! ### Step 3 -/

theorem defUse_cases {i : InstId} {operand : Value} (run : defUse i s operand = some s') :
    (∃ j, operand = .inst j ∧ (s.instNodeMap.find j).isSome = true ∧
      s' = s.link (.inst j) (.inst i) EdgeAttr.flow) ∨
    (∃ a, operand = .arg a ∧ (s.calleeInputNodeMap.find a).isSome = true ∧
      s' = s.link (.calleeInput a) (.inst i) EdgeAttr.flow) ∨
    ((∀ j, operand ≠ .inst j) ∧ (∀ a, operand ≠ .arg a) ∧ s' = s) := by
  unfold defUse at run
  split at run
  · split at run
    · rename_i j found
      exact .inl ⟨j, rfl, found, (Option.some.inj run).symm⟩
    · cases run
  · split at run
    · rename_i a found
      exact .inr (.inl ⟨a, rfl, found, (Option.some.inj run).symm⟩)
    · cases run
  · rename_i notInst notArg
    exact .inr (.inr ⟨notInst, notArg, (Option.some.inj run).symm⟩)

theorem intraInst_cases {f : FuncId} {I : Instruction} (run : intraInst f s I = some s') :
    (s.instNodeMap.find I.id).isSome = true ∧
    ∃ t, I.operands.foldlM (defUse I.id) s = some t ∧
      s' = callReturnFlow I (returnFlow f I t) := by
  unfold intraInst at run
  split at run
  · rename_i found
    obtain ⟨t, uses, last⟩ := bind_some run
    exact ⟨found, t, uses, (Option.some.inj last).symm⟩
  · cases run

/-! ### Step 4 -/

theorem recordPointer_cases {store : InstId} {v : Value}
    (run : recordPointer store s v = some s') :
    ∃ j, v = .inst j ∧
      s' = { s with defNodeMap := recordDef j (.inst store) s.defNodeMap } := by
  cases v with
  | inst j => exact ⟨j, rfl, (Option.some.inj run).symm⟩
  | _ => cases run

theorem recordStore_cases {I : Instruction} (run : recordStore A s I = some s') :
    (I.opcode ≠ .store ∧ s' = s) ∨ (I.opcode = .store ∧ ∃ v, I.storePointer = some v ∧
      (A.aliasSet v).foldlM (recordPointer I.id) s = some s') := by
  unfold recordStore at run
  split at run
  · rename_i isStore
    obtain ⟨v, pointer, rest⟩ := bind_some run
    exact .inr ⟨isStore, v, pointer, rest⟩
  · rename_i notStore
    exact .inl ⟨notStore, (Option.some.inj run).symm⟩

theorem generateDefNodeMap_defNodeMap (run : generateDefNodeMap A M s = some s') :
    ∃ m, s' = { s with defNodeMap := m } := by
  refine foldlM_keeps (P := fun t : SDG => ∃ m, t = { s with defNodeMap := m }) ?_ run ⟨_, rfl⟩
  intro I _ t t' one changed
  rcases recordStore_cases one with ⟨_, same⟩ | ⟨_, v, _, pointers⟩
  · exact same ▸ changed
  · refine foldlM_keeps (P := fun t : SDG => ∃ m, t = { s with defNodeMap := m }) ?_ pointers changed
    intro w _ u u' two before
    obtain ⟨j, _, rfl⟩ := recordPointer_cases two
    obtain ⟨m, rfl⟩ := before
    exact ⟨_, rfl⟩

theorem generatePointerEdges_keep {P : SDG → Prop}
    (step : ∀ L ∈ M.insts, ∀ src t, P t → P (pointerEdge src t L)) (start : P s) :
    P (generatePointerEdges M s) := by
  refine foldl_keeps (P := P) (fun it _ t one => ?_) start
  refine foldl_keeps (P := P) (fun src _ u two => ?_) one
  exact foldl_keeps (P := P) (fun L mem w three => step L (List.mem_filter.mp mem).1 src w three) two

theorem runOnModule_cases (run : runOnModule A M = some s) :
    ∃ s1 s2 s3 s4, M.functions.foldlM (stepOne A M) {} = some s1 ∧
      M.insts.foldlM (stepTwo M) s1 = some s2 ∧
      M.functions.foldlM generateIntraDDG s2 = some s3 ∧
      generateDefNodeMap A M s3 = some s4 ∧ s = generatePointerEdges M s4 := by
  obtain ⟨s1, one, rest⟩ := bind_some run
  obtain ⟨s2, two, rest⟩ := bind_some rest
  obtain ⟨s3, three, rest⟩ := bind_some rest
  obtain ⟨s4, four, last⟩ := bind_some rest
  exact ⟨s1, s2, s3, s4, one, two, three, four, (Option.some.inj last).symm⟩

end ProgramSlicer.SDG
