import ProgramSlicer.EntryKept
import ProgramSlicer.ForwardSlice

/-!
Every `graph.insert` that steps 1 to 4 of `SDG::runOnModule` execute, in order. The
stored graph is what replaying this log leaves, one edge for each pair; the
multigraph keeps all of it. What collides on a pair is alike to every slicer mask.
-/
namespace ProgramSlicer
open FoldRules ClosureMarking SDG

abbrev Insertion := (NodePtr × NodePtr) × Option SDGEdge

def insertion (src dst : NodePtr) (attr : Nat) : Insertion := ((src, dst), some ⟨attr⟩)

namespace InsertionLog

def controlBlock (src : NodePtr) (D : BasicBlock) : List Insertion :=
  D.insts.map fun I => insertion src (.inst I.id) EdgeAttr.control

def controlPred (M : Module) (D : BasicBlock) : Option BlockId → List Insertion
  | some S =>
    match (M.block? S).bind BasicBlock.getTerminator with
    | some I => controlBlock (.inst I.id) D
    | none => []
  | none => controlBlock (.entry D.parent) D

def controlNode (M : Module) (bbGraph : CDG.Graph) : Option BlockId → List Insertion
  | none => []
  | some b =>
    match M.block? b with
    | some D => ((bbGraph.getPredSet (some b)).map Prod.fst).flatMap (controlPred M D)
    | none => []

def calleeAux (F : Function) : List Insertion :=
  F.args.map (fun a => insertion (.entry F.id) (.calleeInput a) EdgeAttr.control) ++
    [insertion (.entry F.id) (.calleeOutput F.id) EdgeAttr.control]

def stepOne (A : Analyses) (M : Module) : List Function → CDG.Graph → List Insertion
  | [], _ => []
  | F :: fs, cdg =>
    if F.isDeclaration then stepOne A M fs cdg
    else
      match CDG.runOnFunction (A.pdt F.id) F cdg with
      | some cdg => cdg.getNodeSet.flatMap (controlNode M cdg) ++ calleeAux F ++ stepOne A M fs cdg
      | none => []

def callerInput (ci : InstId) (v : Value) (a : ArgId) : List Insertion :=
  [insertion (.inst ci) (.callerInput ci v) EdgeAttr.control,
    insertion (.callerInput ci v) (.calleeInput a) EdgeAttr.paramIn]

def callerInputs (ci : InstId) : List Value → List ArgId → List Insertion
  | v :: vs, a :: as => callerInput ci v a ++ callerInputs ci vs as
  | _, _ => []

def callerOutput (ci : InstId) (f : FuncId) : List Insertion :=
  [insertion (.inst ci) (.callerOutput ci (.inst ci)) EdgeAttr.control,
    insertion (.calleeOutput f) (.callerOutput ci (.inst ci)) EdgeAttr.paramOut]

def connectCall (I : Instruction) (CF : Function) : List Insertion :=
  insertion (.inst I.id) (.entry CF.id) EdgeAttr.call ::
    (callerInputs I.id I.argOperands CF.args ++ callerOutput I.id CF.id)

def stepTwo (M : Module) (I : Instruction) : List Insertion :=
  if I.opcode = .call then
    match I.getCalledFunction.bind M.function? with
    | some CF => if CF.isDeclaration then [] else connectCall I CF
    | none => []
  else []

def defUse (i : InstId) : Value → List Insertion
  | .inst j => [insertion (.inst j) (.inst i) EdgeAttr.flow]
  | .arg a => [insertion (.calleeInput a) (.inst i) EdgeAttr.flow]
  | _ => []

def returnFlow (f : FuncId) (I : Instruction) : List Insertion :=
  if I.opcode = .ret then [insertion (.inst I.id) (.calleeOutput f) EdgeAttr.flow] else []

def callReturnFlow (I : Instruction) : List Insertion :=
  if I.opcode = .call then
    [insertion (.callerOutput I.id (.inst I.id)) (.inst I.id) EdgeAttr.flow]
  else []

def intraInst (f : FuncId) (I : Instruction) : List Insertion :=
  I.operands.flatMap (defUse I.id) ++ (returnFlow f I ++ callReturnFlow I)

def pointerEdges (M : Module) (defNodeMap : List (InstId × List NodePtr)) : List Insertion :=
  defNodeMap.flatMap fun it => it.2.flatMap fun src =>
    (SDG.loadUsers M it.1).map fun L => insertion src (.inst L.id) EdgeAttr.flow

/-- The whole run, given the definitions that step 4 has collected. -/
def runOnModule (A : Analyses) (M : Module) (defNodeMap : List (InstId × List NodePtr)) :
    List Insertion :=
  stepOne A M M.functions {} ++ (M.insts.flatMap (stepTwo M) ++
    (M.functions.flatMap (fun F => F.insts.flatMap (intraInst F.id)) ++ pointerEdges M defNodeMap))

end InsertionLog

namespace SDG
variable {A : Analyses} {M : Module} {s : SDG}

/-- A part of the construction that executes the insertions of `log` in this order. -/
def Logs (log : List Insertion) (s s' : SDG) : Prop :=
  s'.graph = DirectedGraph.replay log s.graph

theorem logs_trans {first second : List Insertion} {t u : SDG} (one : Logs first s t)
    (two : Logs second t u) : Logs (first ++ second) s u := by
  unfold Logs at *
  rw [two, one, DirectedGraph.replay_append]

theorem logs_foldlM {α : Type} {f : SDG → α → Option SDG} {l : List α}
    (log : α → List Insertion) (step : ∀ x ∈ l, ∀ t t', f t x = some t' → Logs (log x) t t') {s' : SDG}
    (run : l.foldlM f s = some s') : Logs (l.flatMap log) s s' := by
  induction l generalizing s with
  | nil =>
    have same : s = s' := by simpa using run
    exact same ▸ rfl
  | cons x l ih =>
    rw [List.foldlM_cons] at run
    obtain ⟨t, first, rest⟩ := bind_some run
    rw [List.flatMap_cons]
    exact logs_trans (step x (by simp) s t first) (ih (fun y hy => step y (by simp [hy])) rest)

theorem logs_foldl {α : Type} {f : SDG → α → SDG} {l : List α} (log : α → List Insertion)
    (step : ∀ x ∈ l, ∀ t, Logs (log x) t (f t x)) (s : SDG) :
    Logs (l.flatMap log) s (l.foldl f s) := by
  induction l generalizing s with
  | nil => rfl
  | cons x l ih =>
    rw [List.flatMap_cons, List.foldl_cons]
    exact logs_trans (step x (by simp) s) (ih (fun y hy => step y (by simp [hy])) (f s x))

theorem controlBlock_logs (src : NodePtr) (D : BasicBlock) (s : SDG) :
    Logs (InsertionLog.controlBlock src D) s (controlBlock src D s) := by
  unfold InsertionLog.controlBlock
  rw [List.map_eq_flatMap]
  refine logs_foldl (fun I : Instruction => [insertion src (.inst I.id) EdgeAttr.control]) ?_ s
  exact fun I _ t => rfl

theorem controlPred_logs {D : BasicBlock} {pred : Option BlockId} {s' : SDG}
    (run : controlPred M D s pred = some s') :
    Logs (InsertionLog.controlPred M D pred) s s' := by
  cases pred with
  | none =>
    rw [controlPred_entry run]
    exact controlBlock_logs (.entry D.parent) D _
  | some S =>
    obtain ⟨B, T, block, term, rfl⟩ := controlPred_block run
    simp only [InsertionLog.controlPred, block, Option.bind_some, term]
    exact controlBlock_logs (.inst T.id) D _

theorem controlNode_logs {cdg : CDG.Graph} {n : Option BlockId} {s' : SDG}
    (run : controlNode M cdg s n = some s') : Logs (InsertionLog.controlNode M cdg n) s s' := by
  rcases controlNode_cases run with ⟨rfl, rfl⟩ | ⟨D, hD, rfl, preds⟩
  · rfl
  · simp only [InsertionLog.controlNode, block_lookup.mpr ⟨hD, rfl⟩]
    exact logs_foldlM _ (fun pred _ t t' one => controlPred_logs one) preds

theorem calleeAux_logs (F : Function) (s : SDG) :
    Logs (InsertionLog.calleeAux F) s (calleeAux F s) := by
  unfold InsertionLog.calleeAux
  rw [List.map_eq_flatMap]
  have inputs := logs_foldl (l := F.args) (f := calleeInput F.id)
    (fun a => [insertion (.entry F.id) (.calleeInput a) EdgeAttr.control])
    (fun a _ t => rfl) { s with entryNodeMap := s.entryNodeMap.index F.id }
  exact logs_trans (s := { s with entryNodeMap := s.entryNodeMap.index F.id }) inputs rfl

theorem stepsOne_logs {fs : List Function} {s' : SDG} (run : fs.foldlM (stepOne A M) s = some s') :
    Logs (InsertionLog.stepOne A M fs s.cdg) s s' := by
  induction fs generalizing s with
  | nil =>
    have same : s = s' := by simpa using run
    exact same ▸ rfl
  | cons F fs ih =>
    rw [List.foldlM_cons] at run
    obtain ⟨t, first, rest⟩ := bind_some run
    unfold InsertionLog.stepOne
    split
    · rename_i declared
      have same : s = t := by simpa [stepOne, declared] using first
      exact same ▸ ih rest
    · rename_i defined
      have cdgRun : CDG.runOnFunction (A.pdt F.id) F s.cdg = some t.cdg :=
        (stepOne_cdg first).resolve_left fun h => defined h.1
      rw [cdgRun]
      refine logs_trans (t := t) ?_ (ih rest)
      rcases stepOne_cases first with ⟨declared, _⟩ | ⟨_, cdg, u, analysed, nodes, last⟩
      · exact absurd declared defined
      · obtain rfl : cdg = t.cdg := Option.some.inj (analysed.symm.trans cdgRun)
        have aux : Logs (InsertionLog.calleeAux F) u t := last ▸ calleeAux_logs F u
        exact logs_trans (logs_foldlM (s := { s with cdg := t.cdg }) _
          (fun n _ v v' one => controlNode_logs one) nodes) aux

theorem callerInputs_logs {ci : InstId} {vs : List Value} {formals : List ArgId} {s' : SDG}
    (run : callerInputs ci vs formals s = some s') :
    Logs (InsertionLog.callerInputs ci vs formals) s s' := by
  induction vs generalizing formals s with
  | nil => exact Option.some.inj run ▸ rfl
  | cons v vs ih =>
    cases formals with
    | nil => simp [callerInputs] at run
    | cons a formals => exact logs_trans (t := callerInput ci v a s) rfl (ih run)

theorem stepTwo_logs {I : Instruction} {s' : SDG} (run : stepTwo M s I = some s') :
    Logs (InsertionLog.stepTwo M I) s s' := by
  unfold stepTwo at run
  unfold InsertionLog.stepTwo
  split at run
  · rename_i isCall
    obtain ⟨f, callee, rest⟩ := bind_some run
    obtain ⟨CF, found, body⟩ := bind_some rest
    simp only [isCall, callee, Option.bind_some, found, if_true]
    split at body
    · rename_i declared
      rw [if_pos declared]
      exact Option.some.inj body ▸ rfl
    · rename_i defined
      rw [if_neg defined]
      obtain ⟨_, _, t, inputs, rfl⟩ := connectCall_cases body
      have called : Logs [insertion (.inst I.id) (.entry CF.id) EdgeAttr.call] s
          (link { s with
            instNodeMap := s.instNodeMap.index I.id
            entryNodeMap := s.entryNodeMap.index CF.id }
            (.inst I.id) (.entry CF.id) EdgeAttr.call) := rfl
      exact logs_trans called (logs_trans (callerInputs_logs inputs) rfl)
  · rename_i notCall
    rw [if_neg notCall]
    exact Option.some.inj run ▸ rfl

theorem defUse_logs {i : InstId} {v : Value} {s' : SDG} (run : defUse i s v = some s') :
    Logs (InsertionLog.defUse i v) s s' := by
  cases v with
  | inst j =>
    simp only [defUse] at run
    split at run
    · exact Option.some.inj run ▸ rfl
    · cases run
  | arg a =>
    simp only [defUse] at run
    split at run
    · exact Option.some.inj run ▸ rfl
    · cases run
  | func f => exact Option.some.inj run ▸ rfl
  | other k => exact Option.some.inj run ▸ rfl

theorem intraInst_logs {f : FuncId} {I : Instruction} {s' : SDG}
    (run : intraInst f s I = some s') : Logs (InsertionLog.intraInst f I) s s' := by
  obtain ⟨_, t, uses, rfl⟩ := intraInst_cases run
  refine logs_trans (logs_foldlM _ (fun v _ u u' one => defUse_logs one) uses)
    (logs_trans (t := returnFlow f I t) ?_ ?_)
  · unfold InsertionLog.returnFlow returnFlow
    split <;> rfl
  · unfold InsertionLog.callReturnFlow callReturnFlow
    split <;> rfl

theorem generatePointerEdges_logs (M : Module) (s : SDG) :
    Logs (InsertionLog.pointerEdges M s.defNodeMap) s (generatePointerEdges M s) := by
  refine logs_foldl _ (fun it _ t => logs_foldl _ (fun src _ u => ?_) t) s
  rw [List.map_eq_flatMap]
  refine logs_foldl (fun L : Instruction => [insertion src (.inst L.id) EdgeAttr.flow]) ?_ u
  exact fun L _ v => rfl

/-- The stored graph is what the insertions of the four steps leave, in their order. -/
theorem runOnModule_graph (run : runOnModule A M = some s) :
    s.graph = .ofInserts (InsertionLog.runOnModule A M s.defNodeMap) := by
  obtain ⟨s1, s2, s3, s4, one, two, three, four, same⟩ := runOnModule_cases run
  have calls := logs_foldlM (InsertionLog.stepTwo M) (fun I _ t t' step => stepTwo_logs step) two
  have flows := logs_foldlM (fun F : Function => F.insts.flatMap (InsertionLog.intraInst F.id))
    (fun F _ t t' inner => logs_foldlM _ (fun I _ u u' step => intraInst_logs step) inner) three
  have pointers := generatePointerEdges_logs M s4
  have defs : s.defNodeMap = s4.defNodeMap := same.symm ▸ (generatePointerEdges_extends M s4).defs
  rw [← same, ← defs] at pointers
  have after : Logs (InsertionLog.pointerEdges M s.defNodeMap) s3 s := by
    unfold Logs at *
    rw [pointers, (generateDefNodeMap_graph four).1]
  exact logs_trans (stepsOne_logs one) (logs_trans calls (logs_trans flows after))

def AllShaped (log : List Insertion) : Prop := ∀ x ∈ log, Shaped x

theorem shaped_insertion {src dst : NodePtr} {attr : Nat} :
    Shaped (insertion src dst attr) ↔ attr ∈ (edgeKind src dst).attrs := by
  constructor
  · intro ⟨k, kind, same⟩
    have eq : attr = k := congrArg SDGEdge.attr (Option.some.inj same)
    exact eq ▸ kind
  · exact fun kind => ⟨attr, kind, rfl⟩

theorem allShaped_append {first second : List Insertion} (one : AllShaped first)
    (two : AllShaped second) : AllShaped (first ++ second) := by
  intro x mem
  exact (List.mem_append.mp mem).elim (one x) (two x)

theorem allShaped_flatMap {α : Type} {log : α → List Insertion} (l : List α)
    (each : ∀ x, AllShaped (log x)) : AllShaped (l.flatMap log) := by
  intro x mem
  obtain ⟨y, _, inner⟩ := List.mem_flatMap.mp mem
  exact each y x inner

theorem allShaped_map {α : Type} (l : List α) {src dst : α → NodePtr} {attr : Nat}
    (kind : ∀ x, attr ∈ (edgeKind (src x) (dst x)).attrs) :
    AllShaped (l.map fun x => insertion (src x) (dst x) attr) := by
  intro x mem
  obtain ⟨y, _, rfl⟩ := List.mem_map.mp mem
  exact shaped_insertion.mpr (kind y)

theorem controlBlock_shaped (src : NodePtr) (D : BasicBlock) :
    AllShaped (InsertionLog.controlBlock src D) :=
  allShaped_map D.insts fun I => by simp [edgeKind_inst, EdgeKind.attrs]

theorem controlNode_shaped (M : Module) (g : CDG.Graph) (n : Option BlockId) :
    AllShaped (InsertionLog.controlNode M g n) := by
  unfold InsertionLog.controlNode
  split
  · simp [AllShaped]
  · split
    · refine allShaped_flatMap _ fun pred => ?_
      unfold InsertionLog.controlPred
      split
      · split
        · exact controlBlock_shaped _ _
        · simp [AllShaped]
      · exact controlBlock_shaped _ _
    · simp [AllShaped]

theorem stepOne_shaped (A : Analyses) (M : Module) (fs : List Function) (cdg : CDG.Graph) :
    AllShaped (InsertionLog.stepOne A M fs cdg) := by
  induction fs generalizing cdg with
  | nil => simp [InsertionLog.stepOne, AllShaped]
  | cons F fs ih =>
    unfold InsertionLog.stepOne
    split
    · exact ih cdg
    · split
      · rename_i g _
        have aux : AllShaped (InsertionLog.calleeAux F) :=
          allShaped_append (allShaped_map F.args fun a => by simp [edgeKind, EdgeKind.attrs])
            (by simp [AllShaped, shaped_insertion, edgeKind, EdgeKind.attrs])
        exact allShaped_append (allShaped_append
          (allShaped_flatMap _ (controlNode_shaped M g)) aux) (ih g)
      · simp [AllShaped]

theorem callerInputs_shaped (ci : InstId) (vs : List Value) (formals : List ArgId) :
    AllShaped (InsertionLog.callerInputs ci vs formals) := by
  induction vs generalizing formals with
  | nil => simp [InsertionLog.callerInputs, AllShaped]
  | cons v vs ih =>
    cases formals with
    | nil => simp [InsertionLog.callerInputs, AllShaped]
    | cons a formals =>
      refine allShaped_append ?_ (ih formals)
      simp [InsertionLog.callerInput, AllShaped, shaped_insertion, edgeKind, EdgeKind.attrs]

theorem stepTwo_shaped (M : Module) (I : Instruction) : AllShaped (InsertionLog.stepTwo M I) := by
  unfold InsertionLog.stepTwo
  split
  · split
    · split
      · simp [AllShaped]
      · rename_i CF _ _
        have called : AllShaped [insertion (.inst I.id) (.entry CF.id) EdgeAttr.call] := by
          simp [AllShaped, shaped_insertion, edgeKind, EdgeKind.attrs]
        have output : AllShaped (InsertionLog.callerOutput I.id CF.id) := by
          simp [InsertionLog.callerOutput, AllShaped, shaped_insertion, edgeKind, EdgeKind.attrs]
        exact allShaped_append called (allShaped_append (callerInputs_shaped _ _ _) output)
    · simp [AllShaped]
  · simp [AllShaped]

theorem intraInst_shaped (f : FuncId) (I : Instruction) :
    AllShaped (InsertionLog.intraInst f I) := by
  refine allShaped_append (allShaped_flatMap _ fun v => ?_) (allShaped_append ?_ ?_)
  · unfold InsertionLog.defUse
    split <;> simp [AllShaped, shaped_insertion, edgeKind, EdgeKind.attrs]
  · unfold InsertionLog.returnFlow
    split <;> simp [AllShaped, shaped_insertion, edgeKind, EdgeKind.attrs]
  · unfold InsertionLog.callReturnFlow
    split <;> simp [AllShaped, shaped_insertion, edgeKind, EdgeKind.attrs]

theorem runOnModule_shaped (A : Analyses) (M : Module) (defs : List (InstId × List NodePtr)) :
    AllShaped (InsertionLog.runOnModule A M defs) := by
  refine allShaped_append (stepOne_shaped A M M.functions {})
    (allShaped_append (allShaped_flatMap _ (stepTwo_shaped M)) (allShaped_append
      (allShaped_flatMap _ fun F => allShaped_flatMap _ (intraInst_shaped F.id)) ?_))
  refine allShaped_flatMap _ fun it => allShaped_flatMap _ fun src => allShaped_map _ fun L => ?_
  simp [edgeKind_inst, EdgeKind.attrs]

theorem mask_alike {src dst : NodePtr} {k l : Nat} (first : k ∈ (edgeKind src dst).attrs)
    (second : l ∈ (edgeKind src dst).attrs) {mask : Nat}
    (slicer : mask = maskStep1 ∨ mask = maskStep2) :
    (SDGEdge.mk k).ifMask mask = (SDGEdge.mk l).ifMask mask := by
  have alike : ∀ kind : EdgeKind, ∀ k ∈ kind.attrs, ∀ l ∈ kind.attrs,
      ∀ mask ∈ [maskStep1, maskStep2],
        (SDGEdge.mk k).ifMask mask = (SDGEdge.mk l).ifMask mask := by
    intro kind
    cases kind <;> decide
  exact alike (edgeKind src dst) k first l second mask (by simpa using slicer)

/-- A slicer passes from node to node on the stored graph as on the multigraph. -/
theorem passes_keepAll {log : List Insertion} (shaped : AllShaped log)
    (graph : s.graph = .ofInserts log) {mask : Nat} (slicer : mask = maskStep1 ∨ mask = maskStep2)
    (a b : NodePtr) :
    ({ s with graph := .keepAll log } : SDG).Passes mask a b ↔ s.Passes mask a b := by
  have logged : ∀ x ∈ s.graph.edges, x ∈ log := by
    intro x stored
    rw [graph] at stored
    exact (DirectedGraph.mem_replay stored).resolve_right (by simp)
  constructor
  · intro ⟨edge, kept, passes⟩
    have conn : s.Conn a b := by
      unfold Conn
      rw [graph]
      exact DirectedGraph.connected_replay.mpr (Or.inl ⟨_, kept⟩)
    obtain ⟨last, stored⟩ := conn
    obtain ⟨k, kind, same⟩ := shaped _ (logged _ stored)
    obtain ⟨l, kind', same'⟩ := shaped _ kept
    simp only at same same'
    rw [Option.some.inj same'] at passes
    exact ⟨⟨k⟩, same ▸ stored, (mask_alike kind kind' slicer).trans passes⟩
  · intro ⟨edge, stored, passes⟩
    exact ⟨edge, logged _ stored, passes⟩

/-- The finished SDG with every edge that was ever inserted. -/
def multigraph (A : Analyses) (M : Module) (s : SDG) : SDG :=
  { s with graph := .keepAll (InsertionLog.runOnModule A M s.defNodeMap) }

/-- Both slicers mark on the stored graph what they mark on the multigraph of all
    insertions, whatever the order of their work sets. -/
theorem slices_of_multigraph (run : runOnModule A M = some s) (ord ord' : Order NodePtr)
    (criterion : List NodePtr) :
    s.graph = .ofInserts (InsertionLog.runOnModule A M s.defNodeMap) ∧
      (∃ marked marked', BackSlice.markVerticesOfBackSlice ord s criterion = some marked ∧
        BackSlice.markVerticesOfBackSlice ord' (multigraph A M s) criterion = some marked' ∧
        ∀ n, n ∈ marked ↔ n ∈ marked') ∧
      ∃ marked marked', ForwardSlice.markVerticesOfForwardSlice ord s criterion = some marked ∧
        ForwardSlice.markVerticesOfForwardSlice ord' (multigraph A M s) criterion = some marked' ∧
        ∀ n, n ∈ marked ↔ n ∈ marked' := by
  have graph := runOnModule_graph run
  have shaped := runOnModule_shaped A M s.defNodeMap
  have listed : s.graph.NodesListed := graph ▸ DirectedGraph.nodesListed_ofInserts _
  have kept : (multigraph A M s).graph.NodesListed := DirectedGraph.nodesListed_keepAll _
  have step1 : (multigraph A M s).Passes maskStep1 = s.Passes maskStep1 :=
    funext₂ fun a b => propext (passes_keepAll shaped graph (Or.inl rfl) a b)
  have step2 : (multigraph A M s).Passes maskStep2 = s.Passes maskStep2 :=
    funext₂ fun a b => propext (passes_keepAll shaped graph (Or.inr rfl) a b)
  refine ⟨graph, ?_, ?_⟩
  · obtain ⟨marked, mark, mem⟩ := markVerticesOfBackSlice_marks listed ord criterion
    obtain ⟨marked', mark', mem'⟩ := markVerticesOfBackSlice_marks kept ord' criterion
    refine ⟨marked, marked', mark, mark', fun n => ?_⟩
    rw [mem, mem', step1, step2]
  · obtain ⟨marked, mark, mem⟩ := markVerticesOfForwardSlice_marks listed ord criterion
    obtain ⟨marked', mark', mem'⟩ := markVerticesOfForwardSlice_marks kept ord' criterion
    refine ⟨marked, marked', mark, mark', fun n => ?_⟩
    rw [mem, mem', step1, step2]

/-- The pair of the loop's terminator and the instruction that uses its value is
    inserted as a control edge and again as a flow edge. -/
theorem loopedInvoke_multigraph : ∃ s, runOnModule loopedAnalyses loopedInvoke = some s ∧
    (insertion (.inst 3) (.inst 2) EdgeAttr.control ∈
        InsertionLog.runOnModule loopedAnalyses loopedInvoke s.defNodeMap ∧
      insertion (.inst 3) (.inst 2) EdgeAttr.flow ∈
        InsertionLog.runOnModule loopedAnalyses loopedInvoke s.defNodeMap) ∧
    s.graph = .ofInserts (InsertionLog.runOnModule loopedAnalyses loopedInvoke s.defNodeMap) ∧
      (∃ marked marked', BackSlice.markVerticesOfBackSlice Order.head s [.inst 2] = some marked ∧
        BackSlice.markVerticesOfBackSlice Order.head (multigraph loopedAnalyses loopedInvoke s)
          [.inst 2] = some marked' ∧
        ∀ n, n ∈ marked ↔ n ∈ marked') ∧
      ∃ marked marked', ForwardSlice.markVerticesOfForwardSlice Order.head s [.inst 2] =
          some marked ∧
        ForwardSlice.markVerticesOfForwardSlice Order.head
          (multigraph loopedAnalyses loopedInvoke s) [.inst 2] = some marked' ∧
        ∀ n, n ∈ marked ↔ n ∈ marked' := by
  have collide : ((runOnModule loopedAnalyses loopedInvoke).map fun s =>
      decide (insertion (.inst 3) (.inst 2) EdgeAttr.control ∈
          InsertionLog.runOnModule loopedAnalyses loopedInvoke s.defNodeMap ∧
        insertion (.inst 3) (.inst 2) EdgeAttr.flow ∈
          InsertionLog.runOnModule loopedAnalyses loopedInvoke s.defNodeMap)) = some true := by
    decide +kernel
  obtain ⟨s, run, both⟩ := Option.map_eq_some_iff.mp collide
  exact ⟨s, run, of_decide_eq_true both,
    slices_of_multigraph run Order.head Order.head [.inst 2]⟩

end SDG
end ProgramSlicer
