import ProgramSlicer.InsertionLog
import ProgramSlicer.NodeCoverage

/-!
The nodes of a finished SDG. Step 2 makes the node for the result of a call only
where the callee has a body; step 3 adds a flow edge from that node for every call,
and its `operator[]` then default-constructs the node of an external call.
-/
namespace ProgramSlicer
open FoldRules

/-- The program entity that a node stands for. -/
def NodePtr.entity : NodePtr → Value
  | .inst i => .inst i
  | .entry f => .func f
  | .calleeInput a => .arg a
  | .callerInput _ v => v
  | .calleeOutput f => .func f
  | .callerOutput _ v => v

def NodePtr.attr : NodePtr → NodeAttr
  | .inst _ => .instruction
  | .entry _ => .entry
  | .calleeInput _ | .calleeOutput _ => .calleeAux
  | .callerInput _ _ | .callerOutput _ _ => .callerAux

theorem NodePtr.attr_ne_SIZE (n : NodePtr) : n.attr ≠ .SIZE := by
  cases n <;> simp [NodePtr.attr]

namespace SDG

def lookup (s : SDG) : NodePtr → Option SDGNode
  | .inst i => s.instNodeMap.find i
  | .entry f => s.entryNodeMap.find f
  | .calleeInput a => s.calleeInputNodeMap.find a
  | .callerInput ci v => s.callerInputNodeMap.find (ci, v)
  | .calleeOutput f => s.calleeOutputNodeMap.find f
  | .callerOutput ci v => s.callerOutputNodeMap.find (ci, v)

/-- Every node of the graph is the map entry of its entity, with a valid attribute. -/
def Initialised (s : SDG) : Prop :=
  ∀ n ∈ s.graph.getNodeSet, ∃ node, s.lookup n = some node ∧ node.attr ≠ .SIZE ∧
    node.value = some n.entity

variable {A : Analyses} {M : Module} {s : SDG}

/-- What the module has where the graph has such a node. -/
def StandsFor (M : Module) : NodePtr → Prop
  | .inst i => M.HasInst i
  | .entry f => M.HasBody f
  | .calleeInput a => M.HasFormal a
  | .callerInput ci v => ∃ I ∈ M.insts, I.id = ci ∧ (∃ F, CallTo M I F) ∧ v ∈ I.argOperands
  | .calleeOutput f => M.HasBody f
  | .callerOutput ci v => v = .inst ci ∧ ∃ I ∈ M.insts, I.id = ci ∧ I.opcode = .call

theorem dependence_ends (verified : M.Verified) {cdg : CDG.Graph} {a b : NodePtr}
    (dep : Dependence A M cdg a b) : StandsFor M a ∧ StandsFor M b := by
  have callee : ∀ {I F}, CallTo M I F → M.HasBody F.id :=
    fun call => ⟨_, call.inModule, call.defined, rfl⟩
  cases dep with
  | control hS hD _ term hI =>
    exact ⟨hasInst_of_block hS (terminator_mem term).1, hasInst_of_block hD hI⟩
  | entryControl hD _ hI => exact ⟨hasBody_of_block hD, hasInst_of_block hD hI⟩
  | formal hF defined hf => exact ⟨⟨_, hF, defined, rfl⟩, _, hF, defined, hf⟩
  | result hF defined => exact ⟨⟨_, hF, defined, rfl⟩, _, hF, defined, rfl⟩
  | call hI call => exact ⟨⟨_, hI, rfl⟩, callee call⟩
  | actual hI call hv => exact ⟨⟨_, hI, rfl⟩, _, hI, rfl, ⟨_, call⟩, hv⟩
  | paramIn hI call matched =>
    obtain ⟨hv, hf⟩ := List.of_mem_zip matched
    exact ⟨⟨_, hI, rfl, ⟨_, call⟩, hv⟩, _, call.inModule, call.defined, hf⟩
  | returned hI call => exact ⟨⟨_, hI, rfl⟩, rfl, _, hI, rfl, call.isCall⟩
  | paramOut hI call => exact ⟨callee call, rfl, _, hI, rfl, call.isCall⟩
  | operand hI used =>
    obtain ⟨F, hF, hIF⟩ := mem_module_insts.mp hI
    obtain ⟨J, hJ, rfl⟩ := verified.operand_local F hF _ hIF _ used
    exact ⟨⟨J, mem_module_insts.mpr ⟨F, hF, hJ⟩, rfl⟩, _, hI, rfl⟩
  | argument hI used =>
    obtain ⟨F, hF, hIF⟩ := mem_module_insts.mp hI
    obtain ⟨B, hB, _⟩ := mem_insts.mp hIF
    exact ⟨⟨F, hF, defined_of_block hB, verified.operand_local F hF _ hIF _ used⟩, _, hI, rfl⟩
  | @ret F I hF hI _ =>
    obtain ⟨B, hB, _⟩ := mem_insts.mp hI
    exact ⟨⟨I, mem_module_insts.mpr ⟨F, hF, hI⟩, rfl⟩, F, hF, defined_of_block hB, rfl⟩
  | callReturn hI isCall => exact ⟨⟨rfl, _, hI, rfl, isCall⟩, _, hI, rfl⟩
  | memory hS _ hL _ _ => exact ⟨⟨_, hS, rfl⟩, _, hL, rfl⟩

theorem nodesUsed_of_run (run : runOnModule A M = some s) : s.graph.NodesUsed := by
  rw [runOnModule_graph run]
  exact DirectedGraph.nodesUsed_ofInserts _

theorem standsFor_of_node (verified : M.Verified) (run : runOnModule A M = some s) {n : NodePtr}
    (node : n ∈ s.graph.getNodeSet) : StandsFor M n := by
  obtain ⟨m, edge | edge⟩ := nodesUsed_of_run run n node
  · exact (dependence_ends verified ((runOnModule_conn run _ _).mp edge)).1
  · exact (dependence_ends verified ((runOnModule_conn run _ _).mp edge)).2

section CallerNodes

def callerNode (k : InstId × Value) : SDGNode := ⟨.callerAux, some k.2⟩

structure CallersMade (M : Module) (s : SDG) : Prop where
  input : s.callerInputNodeMap.Made (fun k => CallsBody M k.1) callerNode
  output : s.callerOutputNodeMap.Made (fun k => CallsBody M k.1) callerNode

theorem callersMade_keeps (M : Module) : StepTwoKeeps M (CallersMade M) where
  graph _ _ h := { h with }
  inst _ _ _ h := { h with }
  entry _ _ _ h := { h with }
  calleeInput _ _ _ h := { h with }
  calleeOutput _ _ _ h := { h with }
  callerInput _ _ _ call h := { h with input := NodeMap.made_insert h.input call }
  callerOutput _ _ call h := { h with output := NodeMap.made_insert h.output call }

theorem callerNode_survives (M : Module) (k : InstId × Value) (node : SDGNode) :
    Survives M (fun s => s.callerInputNodeMap.find k = some node) ∧
      Survives M (fun s => s.callerOutputNodeMap.find k = some node) := by
  have kept : ∀ (m : NodeMap (InstId × Value)) j new, m.find k = some node →
      (m.insert j new).find k = some node :=
    fun m j new found => NodeMap.kept_insert m j new k node found
  constructor
  · exact {
      graph := fun _ _ h => h
      inst := fun _ _ _ h => h
      entry := fun _ _ _ h => h
      calleeInput := fun _ _ _ h => h
      calleeOutput := fun _ _ _ h => h
      callerInput := fun _ _ _ _ h => kept _ _ _ h
      callerOutput := fun _ _ _ h => h
      defs := fun _ _ h => h
      callReturn := fun _ _ _ h => h }
  · exact {
      graph := fun _ _ h => h
      inst := fun _ _ _ h => h
      entry := fun _ _ _ h => h
      calleeInput := fun _ _ _ h => h
      calleeOutput := fun _ _ _ h => h
      callerInput := fun _ _ _ _ h => h
      callerOutput := fun _ _ _ h => kept _ _ _ h
      defs := fun _ _ h => h
      callReturn := fun _ _ _ h => kept _ _ _ h }

theorem externalResult_survives {i : InstId} (external : ¬ CallsBody M i) :
    Survives M fun s => ∀ node, s.callerOutputNodeMap.find (i, .inst i) = some node →
      node = {} where
  graph _ _ h := h
  inst _ _ _ h := h
  entry _ _ _ h := h
  calleeInput _ _ _ h := h
  calleeOutput _ _ _ h := h
  callerInput _ _ _ _ h := h
  callerOutput s j call h node found := by
    have other : ¬ (i, Value.inst i) = (j, Value.inst j) := by
      intro same
      exact external ((Prod.mk.inj same).1 ▸ call)
    rw [NodeMap.find_insert] at found
    simp only [other, and_false, if_false] at found
    exact h node found
  defs _ _ h := h
  callReturn s j _ h node found := by
    unfold NodeMap.index at found
    rw [NodeMap.find_insert] at found
    split at found
    · exact (Option.some.inj found).symm
    · exact h node found

theorem callerInputs_found {ci : InstId} {v : Value} {vs : List Value} {formals : List ArgId}
    {s' : SDG} (run : callerInputs ci vs formals s = some s')
    (known : v ∈ vs ∨ (s.callerInputNodeMap.find (ci, v)).isSome = true) :
    (s'.callerInputNodeMap.find (ci, v)).isSome = true := by
  induction vs generalizing formals s with
  | nil => simpa [← Option.some.inj run] using known
  | cons w vs ih =>
    cases formals with
    | nil => simp [callerInputs] at run
    | cons a formals =>
      apply ih run
      rcases known with here | old
      · rcases List.mem_cons.mp here with same | later
        · exact .inr (NodeMap.isSome_insert.mpr (.inl (by rw [same])))
        · exact .inl later
      · exact .inr (NodeMap.isSome_insert.mpr (.inr old))

theorem stepTwo_callers {I : Instruction} {F : Function} (call : CallTo M I F) {s' : SDG}
    (run : stepTwo M s I = some s') :
    (∀ v ∈ I.argOperands, (s'.callerInputNodeMap.find (I.id, v)).isSome = true) ∧
      (s'.callerOutputNodeMap.find (I.id, .inst I.id)).isSome = true := by
  have connected : connectCall I F s = some s' := by
    rcases stepTwo_cases run with ⟨_, none⟩ | ⟨G, other, connected⟩
    · exact absurd call (none F)
    · exact callTo_unique other call ▸ connected
  obtain ⟨_, _, t, inputs, rfl⟩ := connectCall_cases connected
  constructor
  · intro v hv
    have actual := callerInputs_found inputs (.inl hv)
    exact actual
  · exact NodeMap.isSome_insert.mpr (.inl rfl)

theorem stepOne_callers {s1 : SDG} (run : M.functions.foldlM (stepOne A M) {} = some s1) :
    s1.callerInputNodeMap = [] ∧ s1.callerOutputNodeMap = [] :=
  (foldlM_keeps (P := MapsMade M) (fun _ hF _ _ one h => stepOne_made hF one h) run
    (mapsMade_start M)).callers

end CallerNodes

section Calls
variable {I : Instruction} (hI : I ∈ M.insts)
include hI

theorem callerNodes_of_run (run : runOnModule A M = some s) {F : Function}
    (call : CallTo M I F) :
    (∀ v ∈ I.argOperands, s.lookup (.callerInput I.id v) = some ⟨.callerAux, some v⟩) ∧
      s.lookup (.callerOutput I.id (.inst I.id)) = some ⟨.callerAux, some (.inst I.id)⟩ := by
  obtain ⟨s1, s2, one, two, later⟩ := runOnModule_laterSteps run
  obtain ⟨noInputs, noOutputs⟩ := stepOne_callers one
  have made : CallersMade M s2 := foldlM_keeps (P := CallersMade M)
    (fun J hJ _ _ step h => stepTwo_keeps (callersMade_keeps M) hJ step h) two
    ⟨by simp [noInputs, NodeMap.Made], by simp [noOutputs, NodeMap.Made]⟩
  have found : (∀ v ∈ I.argOperands, (s2.callerInputNodeMap.find (I.id, v)).isSome = true) ∧
      (s2.callerOutputNodeMap.find (I.id, .inst I.id)).isSome = true := by
    refine foldlM_establishes (f := stepTwo M)
      (P := fun t : SDG => (∀ v ∈ I.argOperands,
        (t.callerInputNodeMap.find (I.id, v)).isSome = true) ∧
          (t.callerOutputNodeMap.find (I.id, .inst I.id)).isSome = true)
      ?_ hI (fun t t' one => stepTwo_callers call one) two
    intro J hJ t t' step h
    constructor
    · intro v hv
      obtain ⟨node, here⟩ := Option.isSome_iff_exists.mp (h.1 v hv)
      have kept := stepTwo_keeps (callerNode_survives M (I.id, v) node).1.toStepTwoKeeps hJ step here
      rw [kept]
      rfl
    · obtain ⟨node, here⟩ := Option.isSome_iff_exists.mp h.2
      have kept := stepTwo_keeps (callerNode_survives M (I.id, .inst I.id) node).2.toStepTwoKeeps
        hJ step here
      rw [kept]
      rfl
  constructor
  · intro v hv
    exact later _ (callerNode_survives M (I.id, v) _).1
      (NodeMap.find_of_made made.input (found.1 v hv))
  · exact later _ (callerNode_survives M (I.id, .inst I.id) _).2
      (NodeMap.find_of_made made.output found.2)

theorem externalResult_of_run (run : runOnModule A M = some s) (isCall : I.opcode = .call)
    (external : ¬ CallsBody M I.id) : ¬ Initialised s := by
  intro initialised
  obtain ⟨s1, s2, one, two, later⟩ := runOnModule_laterSteps run
  have edge : s.Conn (.callerOutput I.id (.inst I.id)) (.inst I.id) :=
    (runOnModule_conn run _ _).mpr (.callReturn hI isCall)
  have default := runOnModule_survives (externalResult_survives external) run fun s1 one => by
    simp [(stepOne_callers one).2, NodeMap.find]
  obtain ⟨node, found, valid, _⟩ :=
    initialised _ ((runOnModule_built run).listed _ _ edge).1
  rw [default node found] at valid
  exact valid rfl

end Calls

/-- The finished graph has no INVALID node exactly if every call is of a function with a body. -/
theorem initialised_iff (correct : A.Correct M) (verified : M.Verified) (first : M.EntriesFirst)
    (run : runOnModule A M = some s) :
    Initialised s ↔ ∀ I ∈ M.insts, I.opcode = .call → ∃ F, CallTo M I F := by
  constructor
  · intro initialised I hI isCall
    by_contra external
    refine externalResult_of_run hI run isCall ?_ initialised
    rintro ⟨J, hJ, same, F, call⟩
    exact external ⟨F, inst_eq hJ hI same ▸ call⟩
  · intro calls n node
    have exits := (runOnModule_cdg correct verified run).2
    have points : EveryPointHasNode M s := runOnModule_survives (points_survive M) run
      fun s1 one => stepsOne_points correct verified
        (fun F hF defined => hasFreeBlock_of_first verified first hF defined
          fun B _ => exits F hF B.id) one
    have looked : s.lookup n = some ⟨n.attr, some n.entity⟩ := by
      have stands := standsFor_of_node verified run node
      cases n with
      | inst i => exact (points.inst i _).mpr ⟨stands, rfl⟩
      | entry f => exact (points.entry f _).mpr ⟨stands, rfl⟩
      | calleeInput a => exact (points.calleeInput a _).mpr ⟨stands, rfl⟩
      | calleeOutput f => exact (points.calleeOutput f _).mpr ⟨stands, rfl⟩
      | callerInput ci v =>
        obtain ⟨I, hI, rfl, ⟨F, call⟩, hv⟩ := stands
        exact (callerNodes_of_run hI run call).1 v hv
      | callerOutput ci v =>
        obtain ⟨rfl, I, hI, rfl, isCall⟩ := stands
        obtain ⟨F, call⟩ := calls I hI isCall
        exact (callerNodes_of_run hI run call).2
    exact ⟨_, looked, n.attr_ne_SIZE, rfl⟩

theorem passedOn_initialised : ∃ s, runOnModule blockPerFunction passedOn = some s ∧
    Initialised s := by
  obtain ⟨s, run⟩ := passedOn_completes
  refine ⟨s, run, (initialised_iff (singleBlocks_correct rfl (by decide)) (by decide)
    (by decide) run).mpr ?_⟩
  intro I hI isCall
  have callees : ∀ I ∈ passedOn.insts, I.opcode = .call → ∃ F ∈ passedOn.functions,
      I.getCalledFunction = some F.id ∧ F.isDeclaration = false := by decide
  obtain ⟨F, hF, named, defined⟩ := callees I hI isCall
  exact ⟨F, isCall, named, hF, defined⟩

theorem noTree_correct {F : Function} (declared : F.blocks = []) :
    PostDominatorTree.Correct ⟨fun _ => none⟩ F := by
  constructor
  case node_iff => simp [declared]
  all_goals simp

def externalCall : Module where
  functions := [
    { id := 0
      blocks := [⟨0, 0, [
        { id := 0, opcode := .call, operands := [.func 1] },
        { id := 1, opcode := .ret }]⟩] },
    { id := 1, blocks := [] }]
  func_nodup := by decide
  block_nodup := by decide
  inst_nodup := by decide
  arg_nodup := by decide
  parent_eq := by decide

def onlyMain : Analyses where
  pdt f := if f = 0 then singleBlockTree 0 else ⟨fun _ => none⟩
  aliasSet _ := []

theorem onlyMain_correct {M : Module} {main ext : Function} (functions : M.functions = [main, ext])
    (ids : main.id = 0 ∧ ext.id = 1)
    (block : (main.blocks.map fun B => (B.id, B.successors)) = [(0, [])])
    (declared : ext.blocks = []) : onlyMain.Correct M := by
  intro F hF
  rw [functions] at hF
  rcases List.mem_cons.mp hF with rfl | later
  · obtain ⟨B, blocks, same⟩ := List.map_eq_singleton_iff.mp block
    obtain ⟨key, stop⟩ := Prod.mk.inj same
    have tree := singleBlock_correct blocks stop
    rw [key] at tree
    simpa [onlyMain, ids.1] using tree
  · rw [List.mem_singleton.mp later]
    simpa [onlyMain, ids.2] using noTree_correct declared

/-- The run completes, and the call's result is a node of the graph with attribute `SIZE`. -/
theorem externalCall_invalid : externalCall.Verified ∧ externalCall.EntriesFirst ∧
    onlyMain.Correct externalCall ∧ ∃ s, runOnModule onlyMain externalCall = some s ∧
      .callerOutput 0 (.inst 0) ∈ s.graph.getNodeSet ∧
      s.lookup (.callerOutput 0 (.inst 0)) = some ⟨.SIZE, none⟩ ∧ ¬ Initialised s := by
  have first : externalCall.EntriesFirst := by decide
  have run : (runOnModule onlyMain externalCall).map (fun s =>
      decide (.callerOutput 0 (.inst 0) ∈ s.graph.getNodeSet ∧
        s.lookup (.callerOutput 0 (.inst 0)) = some ⟨.SIZE, none⟩)) = some true := by
    decide +kernel
  obtain ⟨s, completes, checked⟩ := Option.map_eq_some_iff.mp run
  obtain ⟨node, invalid⟩ := of_decide_eq_true checked
  refine ⟨by decide, first, onlyMain_correct rfl ⟨rfl, rfl⟩ (by decide) rfl, s, completes, node,
    invalid, ?_⟩
  intro initialised
  obtain ⟨entry, found, valid, _⟩ := initialised _ node
  rw [invalid] at found
  exact valid (Option.some.inj found ▸ rfl)

end SDG
end ProgramSlicer
