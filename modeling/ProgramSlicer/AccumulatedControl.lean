import ProgramSlicer.CdgContract

/-!
Step 1 of `SDG::runOnModule` over the one CDG object that serves every function.
Its block graph is never cleared and each step walks all of it again; the control
edges are nevertheless those of the functions taken alone, whatever their order.
-/
namespace ProgramSlicer
open FoldRules

namespace SDG
variable {A : Analyses} {M : Module} {s : SDG}

def ControlOnly (s : SDG) : Prop := ∀ x ∈ s.graph.edges, x.2 = some ⟨EdgeAttr.control⟩

theorem controlOnly_link (only : ControlOnly s) (a b : NodePtr) :
    ControlOnly (s.link a b EdgeAttr.control) :=
  DirectedGraph.insert_preserves rfl only

theorem controlOnly_block (src : NodePtr) (D : BasicBlock) (only : ControlOnly s) :
    ControlOnly (controlBlock src D s) :=
  foldl_keeps (fun I _ t h => controlOnly_link (s := t.insertInst I.id) h src (.inst I.id)) only

theorem controlOnly_pred {D : BasicBlock} {pred : Option BlockId} {s' : SDG}
    (run : controlPred M D s pred = some s') (only : ControlOnly s) : ControlOnly s' := by
  cases pred with
  | none =>
    rw [controlPred_entry run]
    exact controlOnly_block _ D only
  | some S =>
    obtain ⟨B, T, _, _, rfl⟩ := controlPred_block run
    exact controlOnly_block _ D only

theorem controlOnly_calleeAux (F : Function) (only : ControlOnly s) :
    ControlOnly (calleeAux F s) := by
  have inputs : ControlOnly (F.args.foldl (calleeInput F.id)
      { s with entryNodeMap := s.entryNodeMap.index F.id }) := by
    refine foldl_keeps (P := ControlOnly) ?_ only
    intro a _ t h
    exact controlOnly_link h (.entry F.id) (.calleeInput a)
  exact controlOnly_link inputs (.entry F.id) (.calleeOutput F.id)

theorem controlOnly_stepOne {F : Function} {s' : SDG} (run : stepOne A M s F = some s')
    (only : ControlOnly s) : ControlOnly s' := by
  rcases stepOne_cases run with ⟨_, rfl⟩ | ⟨_, cdg, t, _, nodes, rfl⟩
  · exact only
  · have walked : ControlOnly t := controlNodes_keep (P := ControlOnly)
      (fun D _ pred u u' one h => controlOnly_pred one h) nodes only
    exact controlOnly_calleeAux F walked

theorem stepsOne_control_iff {fs : List Function} (run : fs.foldlM (stepOne A M) {} = some s)
    (a b : NodePtr) :
    ((a, b), some ⟨EdgeAttr.control⟩) ∈ s.graph.edges ↔ s.Conn a b := by
  have only : ControlOnly s := foldlM_keeps (fun F _ t t' one h => controlOnly_stepOne one h) run
    (by simp [ControlOnly])
  constructor
  · exact fun stored => ⟨_, stored⟩
  · intro ⟨edge, stored⟩
    have same : edge = some ⟨EdgeAttr.control⟩ := only _ stored
    exact same ▸ stored

end SDG

def NodePtr.isPlain : NodePtr → Bool
  | .inst _ | .entry _ => true
  | _ => false

/-- What the block graph of a CDG that is run on F alone gives rise to. -/
def AloneControl (A : Analyses) (F : Function) (a b : NodePtr) : Prop :=
  ∃ g, CDG.runOnFunction (A.pdt F.id) F {} = some g ∧ ∃ D ∈ F.blocks, ∃ I ∈ D.insts,
    b = .inst I.id ∧
    ((∃ S ∈ F.blocks, ∃ T, g.Connected (some S.id) (some D.id) ∧ S.getTerminator = some T ∧
        a = .inst T.id) ∨
      (g.Connected none (some D.id) ∧ a = .entry F.id))

section Alone
variable {A : Analyses} {M : Module} {s : SDG}

theorem aloneControl_iff (correct : A.Correct M) (verified : M.Verified) {F : Function}
    (hF : F ∈ M.functions)
    (exits : ∀ b, ControlDependence.ReachesExit F.Edge b) {a b : NodePtr} :
    AloneControl A F a b ↔ ∃ D ∈ F.blocks, ∃ I ∈ D.insts, b = .inst I.id ∧
      ((∃ S ∈ F.blocks, ∃ T, CDG.ControlEdge F (some S.id) (some D.id) ∧
          S.getTerminator = some T ∧ a = .inst T.id) ∨
        (CDG.ControlEdge F none (some D.id) ∧ a = .entry F.id)) := by
  have inside := verified.successor_local F hF
  obtain ⟨g, run⟩ := CDG.runOnFunction_total (correct F hF) inside (fun B _ => exits B.id) {}
  have conn := CDG.runOnFunction_alone (correct F hF) inside run
  unfold AloneControl
  rw [run]
  simp only [Option.some.injEq, exists_eq_left', conn]

theorem controlPart_of_functions (verified : M.Verified) {fs : List Function}
    (inModule : ∀ F ∈ fs, F ∈ M.functions)
    (exits : ∀ F ∈ fs, ∀ b, ControlDependence.ReachesExit F.Edge b) {g : CDG.Graph}
    (conn : ∀ a b, g.Connected a b ↔ ∃ F ∈ fs, CDG.ControlEdge F a b) (a b : NodePtr) :
    SDG.ControlPart M g a b ↔ ∃ F ∈ fs, ∃ D ∈ F.blocks, ∃ I ∈ D.insts, b = .inst I.id ∧
      ((∃ S ∈ F.blocks, ∃ T, CDG.ControlEdge F (some S.id) (some D.id) ∧
          S.getTerminator = some T ∧ a = .inst T.id) ∨
        (CDG.ControlEdge F none (some D.id) ∧ a = .entry F.id)) := by
  rw [SDG.controlPart_iff]
  have inF : ∀ {F : Function} {x y : Option BlockId}, F ∈ fs → CDG.ControlEdge F x y →
      (∃ B ∈ F.blocks, y = some B.id) ∧ ∀ k, x = some k → ∃ C ∈ F.blocks, k = C.id :=
    fun hF edge => CDG.controlEdge_inside (verified.successor_local _ (inModule _ hF))
      (exits _ hF) edge
  have own : ∀ {F : Function} {B : BasicBlock}, F ∈ fs → B ∈ M.blocks →
      (∃ C ∈ F.blocks, B.id = C.id) → B ∈ F.blocks := by
    intro F B hF hB ⟨C, hC, same⟩
    exact block_eq hB (mem_blocks.mpr ⟨F, inModule F hF, hC⟩) same ▸ hC
  constructor
  · rintro (⟨S, hS, D, hD, edge, T, term, I, hI, rfl, rfl⟩ | ⟨D, hD, edge, I, hI, rfl, rfl⟩)
    · obtain ⟨F, hF, edge⟩ := (conn _ _).mp edge
      have ends := inF hF edge
      have hDF := own hF hD (by simpa using ends.1)
      exact ⟨F, hF, D, hDF, I, hI, rfl, Or.inl ⟨S, own hF hS (ends.2 S.id rfl), T, edge, term, rfl⟩⟩
    · obtain ⟨F, hF, edge⟩ := (conn _ _).mp edge
      have hDF := own hF hD (by simpa using (inF hF edge).1)
      rw [M.parent_eq F (inModule F hF) D hDF]
      exact ⟨F, hF, D, hDF, I, hI, rfl, Or.inr ⟨edge, rfl⟩⟩
  · rintro ⟨F, hF, D, hD, I, hI, rfl, ⟨S, hS, T, edge, term, rfl⟩ | ⟨edge, rfl⟩⟩
    · exact Or.inl ⟨S, mem_blocks.mpr ⟨F, inModule F hF, hS⟩, D,
        mem_blocks.mpr ⟨F, inModule F hF, hD⟩, (conn _ _).mpr ⟨F, hF, edge⟩, T, term, I, hI, rfl, rfl⟩
    · refine Or.inr ⟨D, mem_blocks.mpr ⟨F, inModule F hF, hD⟩, (conn _ _).mpr ⟨F, hF, edge⟩,
        I, hI, ?_, rfl⟩
      rw [M.parent_eq F (inModule F hF) D hD]

/-- Step 1 over any sequence of functions of the module stores, between entry and
    instruction nodes, the control edges of each function analysed alone. -/
theorem stepsOne_controlEdges_alone (correct : A.Correct M) (verified : M.Verified)
    {fs : List Function} (inModule : ∀ F ∈ fs, F ∈ M.functions)
    (run : fs.foldlM (SDG.stepOne A M) {} = some s) :
    (∀ F ∈ fs, ∃ g, CDG.runOnFunction (A.pdt F.id) F {} = some g) ∧
    ∀ a b : NodePtr, a.isPlain → b.isPlain →
      (((a, b), some ⟨EdgeAttr.control⟩) ∈ s.graph.edges ↔ ∃ F ∈ fs, AloneControl A F a b) := by
  obtain ⟨conn, exits⟩ := SDG.stepsOne_controlEdges correct verified [] (by simp) inModule (by simp)
    (fun a b => by simp [DirectedGraph.not_connected_empty]) run
  rw [List.nil_append] at conn exits
  constructor
  · intro F hF
    exact CDG.runOnFunction_total (correct F (inModule F hF))
      (verified.successor_local F (inModule F hF)) (fun B _ => exits F hF B.id) {}
  · intro a b plainA plainB
    have after := SDG.stepsOne_afterStepOne (SDG.afterStepOne_start M) run
    have noAux : ¬ ∃ F ∈ [] ++ fs, SDG.CalleeEdge F a b := by
      rintro ⟨F, _, _, _, rfl | ⟨f, _, rfl⟩⟩ <;> cases plainB
    rw [SDG.stepsOne_control_iff run, after.conn,
      controlPart_of_functions verified inModule exits conn]
    simp only [noAux, or_false]
    constructor
    · intro ⟨F, hF, edge⟩
      exact ⟨F, hF, (aloneControl_iff correct verified (inModule F hF) (exits F hF)).mpr edge⟩
    · intro ⟨F, hF, alone⟩
      exact ⟨F, hF, (aloneControl_iff correct verified (inModule F hF) (exits F hF)).mp alone⟩

end Alone

/-- Every function is analysed twice, in two different orders. -/
theorem passedOn_twice : ∃ s,
    (passedOn.functions ++ passedOn.functions.reverse).foldlM
      (SDG.stepOne blockPerFunction passedOn) {} = some s ∧
    (∀ F ∈ passedOn.functions ++ passedOn.functions.reverse,
      ∃ g, CDG.runOnFunction (blockPerFunction.pdt F.id) F {} = some g) ∧
    ∀ a b : NodePtr, a.isPlain → b.isPlain →
      (((a, b), some ⟨EdgeAttr.control⟩) ∈ s.graph.edges ↔
        ∃ F ∈ passedOn.functions ++ passedOn.functions.reverse,
          AloneControl blockPerFunction F a b) := by
  obtain ⟨s, run⟩ := Option.isSome_iff_exists.mp (show ((passedOn.functions ++
    passedOn.functions.reverse).foldlM (SDG.stepOne blockPerFunction passedOn) {}).isSome = true by
      decide +kernel)
  refine ⟨s, run, stepsOne_controlEdges_alone (singleBlocks_correct rfl (by decide)) (by decide)
    (fun F hF => ?_) run⟩
  simpa using hF

end ProgramSlicer
