import ProgramSlicer.SliceModule

/-!
What the backward slicer guarantees: its marked set is context-sensitive
reachability, it is closed under what a kept instruction refers to, and what
that means for the blocks and calls that `sliceModule` leaves.
-/
namespace ProgramSlicer
open CallStrings ClosureMarking SDG

/-- On any graph, in any order of the work sets, the marked nodes are those from which
    a criterion is reached by a path of the second mask followed by one of the first. -/
theorem backSlice_is_two_phase_closure {s : SDG} (listed : s.graph.NodesListed)
    (ord : Order NodePtr) (criterion : List NodePtr) :
    ∃ resultSet, BackSlice.markVerticesOfBackSlice ord s criterion = some resultSet ∧
      ∀ n, n ∈ resultSet ↔ ∃ m, ∃ c ∈ criterion,
        Relation.ReflTransGen (s.Passes (EdgeAttr.control ||| EdgeAttr.flow ||| EdgeAttr.paramOut))
          n m ∧
        Relation.ReflTransGen (s.Passes (EdgeAttr.control ||| EdgeAttr.flow ||| EdgeAttr.call |||
          EdgeAttr.paramIn)) m c := by
  obtain ⟨resultSet, run, mem⟩ := markVerticesOfBackSlice_marks listed ord criterion
  refine ⟨resultSet, run, fun n => ?_⟩
  rw [mem]
  constructor
  · intro ⟨c, hc, m, after, before⟩
    exact ⟨m, c, hc, after, before⟩
  · intro ⟨m, c, hc, after, before⟩
    exact ⟨c, hc, m, after, before⟩

def smallGraph : SDG where
  graph := .ofInserts [
    ((.inst 0, .inst 1), some ⟨EdgeAttr.flow⟩), ((.inst 1, .inst 0), some ⟨EdgeAttr.control⟩),
    ((.inst 1, .inst 1), some ⟨EdgeAttr.paramOut⟩), ((.inst 2, .inst 1), none),
    ((.inst 3, .inst 1), some ⟨EdgeAttr.call⟩), ((.inst 4, .inst 3), some ⟨EdgeAttr.paramOut⟩)]

theorem smallGraph_marked :
    ∃ resultSet, BackSlice.markVerticesOfBackSlice Order.head smallGraph [.inst 0] =
        some resultSet ∧
      ∀ n, n ∈ resultSet ↔ ∃ m, ∃ c ∈ [NodePtr.inst 0],
        Relation.ReflTransGen (smallGraph.Passes
          (EdgeAttr.control ||| EdgeAttr.flow ||| EdgeAttr.paramOut)) n m ∧
        Relation.ReflTransGen (smallGraph.Passes (EdgeAttr.control ||| EdgeAttr.flow |||
          EdgeAttr.call ||| EdgeAttr.paramIn)) m c :=
  backSlice_is_two_phase_closure (DirectedGraph.nodesListed_ofInserts _) Order.head [.inst 0]

def singleBlockTree (b : BlockId) : PostDominatorTree where
  getNode c := if c = b then some (.root (some b)) else none

theorem singleBlock_correct {F : Function} {B : BasicBlock} (blocks : F.blocks = [B])
    (stop : B.successors = []) : (singleBlockTree B.id).Correct F := by
  have noEdge : ∀ b c, ¬ F.Edge b c := by
    intro b c ⟨C, hC, _, hc⟩
    rw [blocks, List.mem_singleton] at hC
    rw [hC, stop] at hc
    cases hc
  have exit : ∀ b, ControlDependence.Exit F.Edge b := fun b c => noEdge b c
  have node : ∀ {b n}, (singleBlockTree B.id).getNode b = some n →
      b = B.id ∧ n = .root (some B.id) := by
    intro b n found
    simp only [singleBlockTree] at found
    split at found
    · rename_i same
      exact ⟨same, (Option.some.inj found).symm⟩
    · cases found
  have alone : ∀ d b, ¬ ControlDependence.StrictlyPostDominates F.Edge d b :=
    fun d b strict => strict.1 (.exit strict.2.symm (exit b))
  refine ⟨fun b => ?_, fun found => ?_, fun found up => ?_, fun found up => ?_, fun found _ => ?_⟩
  · constructor
    · intro ⟨n, found⟩
      exact ⟨⟨B, by simp [blocks], (node found).1.symm⟩, .exit (exit b)⟩
    · rintro ⟨⟨C, hC, rfl⟩, _⟩
      rw [blocks, List.mem_singleton] at hC
      exact ⟨.root (some B.id), by simp [singleBlockTree, hC]⟩
  · obtain ⟨rfl, rfl⟩ := node found
    rfl
  · obtain ⟨_, rfl⟩ := node found
    cases up
  · obtain ⟨_, rfl⟩ := node found
    cases up
  · refine ⟨fun d => alone d _, fun c m other => ?_⟩
    rw [(node found).1, (node other).1]
    exact ControlDependence.postdominates_refl _

theorem singleBlocks_correct {A : Analyses} {M : Module} (trees : A.pdt = singleBlockTree)
    (single : ∀ F ∈ M.functions, (F.blocks.map fun B => (B.id, B.successors)) = [(F.id, [])]) :
    A.Correct M := by
  intro F hF
  obtain ⟨B, blocks, same⟩ := List.map_eq_singleton_iff.mp (single F hF)
  rw [trees, ← (Prod.mk.inj same).1]
  exact singleBlock_correct blocks (Prod.mk.inj same).2

section Marking
variable {A : Analyses} {M : Module} {s : SDG}

def BackMarked (s : SDG) (criterion : List InstId) (n : NodePtr) : Prop :=
  ∃ c ∈ criterion, ∃ m, Climb (Labelled s) n m ∧ Descend (Labelled s) m (.inst c)

theorem backMarked_of_run (run : runOnModule A M = some s) (ord : Order NodePtr)
    (criterion : List InstId) : ∃ marked,
      BackSlice.markVerticesOfBackSlice ord s (criterion.map .inst) = some marked ∧
      ∀ n, n ∈ marked ↔ BackMarked s criterion n := by
  obtain ⟨marked, mark, mem⟩ :=
    markVerticesOfBackSlice_spec (runOnModule_built run) ord (criterion.map .inst)
  refine ⟨marked, mark, fun n => ?_⟩
  rw [mem]
  simp [BackMarked]

theorem labelled_of_dependence (run : runOnModule A M = some s) {a b : NodePtr}
    (dep : Dependence A M s.cdg a b) : Labelled s a (letter a b) b :=
  (labelled_iff (runOnModule_built run)).mpr ⟨(runOnModule_conn run a b).mpr dep, rfl⟩

theorem backMarked_pred (run : runOnModule A M = some s) {criterion : List InstId}
    {a b : NodePtr} (dep : Dependence A M s.cdg a b) (notCall : ∀ i, letter a b ≠ .call i)
    (marked : BackMarked s criterion b) : BackMarked s criterion a := by
  obtain ⟨c, hc, m, up, down⟩ := marked
  exact ⟨c, hc, m, .head ⟨_, notCall, labelled_of_dependence run dep⟩ up, down⟩

theorem backMarked_succ (run : runOnModule A M = some s) {criterion : List InstId}
    {a : NodePtr} (marked : BackMarked s criterion a) :
    (∃ c ∈ criterion, a = .inst c) ∨
      ∃ b, Dependence A M s.cdg a b ∧ BackMarked s criterion b := by
  have built := runOnModule_built run
  obtain ⟨c, hc, m, up, down⟩ := marked
  rcases Relation.ReflTransGen.cases_head up with rfl | ⟨b, ⟨l, _, edge⟩, rest⟩
  · rcases Relation.ReflTransGen.cases_head down with same | ⟨b, ⟨l, _, edge⟩, rest⟩
    · exact Or.inl ⟨c, hc, same⟩
    · exact Or.inr ⟨b, (runOnModule_conn run a b).mp ((labelled_iff built).mp edge).1,
        c, hc, b, .refl, rest⟩
  · exact Or.inr ⟨b, (runOnModule_conn run a b).mp ((labelled_iff built).mp edge).1,
      c, hc, m, rest, down⟩

end Marking

/-- The two passes mark an instruction exactly if a realizable path leads from
    it to a criterion; the missing summary edges make no difference. -/
theorem backSlice_is_realizable_reachability {A : Analyses} {M : Module} {s : SDG}
    (run : runOnModule A M = some s) (ord : Order NodePtr) (criterion : List InstId) :
    ∃ marked, BackSlice.markVerticesOfBackSlice ord s (criterion.map .inst) = some marked ∧
      ∀ i : InstId, .inst i ∈ marked ↔
        ∃ c ∈ criterion, ∃ w, Realizable w ∧ Walk (Labelled s) (.inst i) w (.inst c) := by
  obtain ⟨marked, mark, mem⟩ := backMarked_of_run run ord criterion
  refine ⟨marked, mark, fun i => ?_⟩
  have shape := sites_bypassed (runOnModule_built run)
  have start : ∀ j, ¬ ∃ v, NodePtr.inst i = .callerInput j v := fun j ⟨v, same⟩ => by cases same
  rw [mem]
  unfold BackMarked
  simp only [realizable_iff_two_phases shape start]

/-- main calls function 1 for a value and passes the value on to function 2. -/
def passedOn : Module where
  functions := [
    { id := 0
      blocks := [⟨0, 0, [
        { id := 0, opcode := .call, operands := [.func 1] },
        { id := 1, opcode := .call, operands := [.inst 0, .func 2] },
        { id := 2, opcode := .ret }]⟩] },
    { id := 1
      blocks := [⟨1, 1, [{ id := 3, opcode := .ret, operands := [.other 0] }]⟩] },
    { id := 2
      args := [0]
      blocks := [⟨2, 2, [
        { id := 4, opcode := .other, operands := [.arg 0] },
        { id := 5, opcode := .ret, operands := [.inst 4] }]⟩] }]
  func_nodup := by decide
  block_nodup := by decide
  inst_nodup := by decide
  arg_nodup := by decide
  parent_eq := by decide

def blockPerFunction : Analyses where
  pdt := singleBlockTree
  aliasSet _ := []

theorem passedOn_completes : ∃ s, runOnModule blockPerFunction passedOn = some s :=
  Option.isSome_iff_exists.mp (by decide)

theorem passedOn_backSlice : ∃ s, runOnModule blockPerFunction passedOn = some s ∧
    ∃ marked, BackSlice.markVerticesOfBackSlice Order.head s [.inst 4] = some marked ∧
      ∀ i : InstId, .inst i ∈ marked ↔
        ∃ c ∈ [4], ∃ w, Realizable w ∧ Walk (Labelled s) (.inst i) w (.inst c) := by
  obtain ⟨s, run⟩ := passedOn_completes
  exact ⟨s, run, backSlice_is_realizable_reachability run _ [4]⟩

section Closed
variable {A : Analyses} {M : Module} {s : SDG}

/-- What an instruction of the module refers to, as far as the slicer tracks it. -/
structure RefersClosed (M : Module) (s : SDG) (keep : NodePtr → Prop) (I : Instruction) :
    Prop where
  operand : ∀ j, .inst j ∈ I.operands → keep (.inst j)
  control : ∀ S ∈ M.blocks, ∀ D ∈ M.blocks, I ∈ D.insts →
    s.cdg.Connected (some S.id) (some D.id) → ∀ T, S.getTerminator = some T → keep (.inst T.id)
  memory : ∀ S ∈ M.insts, S.opcode = .store → s.Conn (.inst S.id) (.inst I.id) →
    keep (.inst S.id)
  callee : ∀ G, CallTo M I G → keep (.entry G.id) ∧
    ∀ R ∈ G.insts, R.opcode = .ret → keep (.inst R.id)

theorem callee_output_marked (run : runOnModule A M = some s) {criterion : List InstId}
    {I : Instruction} (hI : I ∈ M.insts) {G : Function} (call : CallTo M I G)
    (marked : BackMarked s criterion (.inst I.id)) :
    BackMarked s criterion (.calleeOutput G.id) := by
  have value := backMarked_pred run (.callReturn hI call.isCall) (by simp [letter]) marked
  exact backMarked_pred run (.paramOut hI call) (by simp [letter]) value

theorem backMarked_refersClosed (run : runOnModule A M = some s) {criterion : List InstId}
    {I : Instruction} (hI : I ∈ M.insts) (marked : BackMarked s criterion (.inst I.id)) :
    RefersClosed M s (BackMarked s criterion) I where
  operand j used := backMarked_pred run (.operand hI used) (by simp [letter]) marked
  control S hS D hD hID edge T term :=
    backMarked_pred run (.control hS hD edge term hID) (by simp [letter]) marked
  memory S _ _ edge :=
    backMarked_pred run ((runOnModule_conn run _ _).mp edge) (by simp [letter]) marked
  callee G call := by
    have output := callee_output_marked run hI call marked
    refine ⟨backMarked_pred run (.result call.inModule call.defined) (by simp [letter]) output, ?_⟩
    intro R hR isRet
    exact backMarked_pred run (.ret call.inModule hR isRet) (by simp [letter]) output

end Closed

/-- The marked set is closed under what its instructions refer to, so that
    removal leaves no dangling operand and no call of a removed function. -/
theorem backSlice_closed {A : Analyses} {M : Module} {s : SDG} (verified : M.Verified)
    (run : runOnModule A M = some s) (ord : Order NodePtr) (criterion : List InstId) :
    ∃ marked, BackSlice.markVerticesOfBackSlice ord s (criterion.map .inst) = some marked ∧
      (∀ I ∈ M.insts, .inst I.id ∈ marked → RefersClosed M s (· ∈ marked) I) ∧
      ∀ fs, BackSlice.sliceModule s marked M = some fs → ∀ I, Remains fs I →
        (∀ j, .inst j ∈ I.operands → ∃ J, J.id = j ∧ Remains fs J) ∧
        ∀ G ∈ M.functions, I.opcode = .call → I.getCalledFunction = some G.id →
          sliceFunction marked G ∈ fs := by
  obtain ⟨marked, mark, mem⟩ := backMarked_of_run run ord criterion
  have closed : ∀ I ∈ M.insts, .inst I.id ∈ marked → RefersClosed M s (· ∈ marked) I := by
    intro I hI isMarked
    have same : (· ∈ marked) = BackMarked s criterion := funext fun n => propext (mem n)
    rw [same]
    exact backMarked_refersClosed run hI ((mem _).mp isMarked)
  refine ⟨marked, mark, closed, fun fs slice I remains => ?_⟩
  obtain ⟨isMarked, F, hF, kept, hIF⟩ := (remains_iff slice I).mp remains
  have refers := closed I (mem_module_insts.mpr ⟨F, hF, hIF⟩) isMarked
  constructor
  · intro j used
    obtain ⟨J, hJ, rfl⟩ := verified.operand_local F hF I hIF _ used
    exact ⟨J, rfl, (remains_iff slice J).mpr ⟨refers.operand _ used, F, hF, kept, hJ⟩⟩
  · intro G hG isCall callee
    refine (backSlice_functions slice _).mpr ⟨G, hG, ?_, rfl⟩
    cases defined : G.isDeclaration with
    | true => exact declaration_kept run hG defined marked
    | false => exact kept_of_entry (refers.callee G ⟨isCall, callee, hG, defined⟩).1

theorem passedOn_closed : ∃ s, runOnModule blockPerFunction passedOn = some s ∧
    ∃ marked, BackSlice.markVerticesOfBackSlice Order.head s [.inst 4] = some marked ∧
      (∀ I ∈ passedOn.insts, .inst I.id ∈ marked → RefersClosed passedOn s (· ∈ marked) I) ∧
      ∀ fs, BackSlice.sliceModule s marked passedOn = some fs → ∀ I, Remains fs I →
        (∀ j, .inst j ∈ I.operands → ∃ J, J.id = j ∧ Remains fs J) ∧
        ∀ G ∈ passedOn.functions, I.opcode = .call → I.getCalledFunction = some G.id →
          sliceFunction marked G ∈ fs := by
  obtain ⟨s, run⟩ := passedOn_completes
  exact ⟨s, run, backSlice_closed (by decide) run Order.head [4]⟩

section Terminators

theorem terminator_last {M : Module} (verified : M.Verified) {B : BasicBlock} (hB : B ∈ M.blocks) :
    ∃ T, B.getTerminator = some T ∧ B.insts = B.insts.dropLast ++ [T] := by
  obtain ⟨T, term⟩ := Option.isSome_iff_exists.mp (verified.terminated B hB).1
  refine ⟨T, term, ?_⟩
  unfold BasicBlock.getTerminator at term
  obtain ⟨last, _⟩ := Option.filter_eq_some_iff.mp term
  exact (List.dropLast_append_getLast? T last).symm

theorem terminator_mem {B : BasicBlock} {T : Instruction} (term : B.getTerminator = some T) :
    T ∈ B.insts ∧ T.isTerminator = true := by
  obtain ⟨last, isTerm⟩ := Option.filter_eq_some_iff.mp term
  exact ⟨List.mem_of_getLast? last, isTerm⟩

theorem sliced_terminator_iff {M : Module} (verified : M.Verified) {B : BasicBlock}
    (hB : B ∈ M.blocks) {T : Instruction} (term : B.getTerminator = some T)
    (marked : List NodePtr) :
    (∃ T', (sliceBlock marked B).getTerminator = some T') ↔ .inst T.id ∈ marked := by
  obtain ⟨T', term', split⟩ := terminator_last verified hB
  rw [term] at term'
  obtain rfl := Option.some.inj term'
  have isTerm := (terminator_mem term).2
  constructor
  · intro ⟨U, termU⟩
    obtain ⟨hU, isTermU⟩ := terminator_mem termU
    obtain ⟨inB, isMarked⟩ := mem_sliceBlock.mp hU
    rw [split] at inB
    rcases List.mem_append.mp inB with body | last
    · rw [(verified.terminated B hB).2 U body] at isTermU
      cases isTermU
    · rwa [← List.mem_singleton.mp last]
  · intro isMarked
    refine ⟨T, ?_⟩
    unfold BasicBlock.getTerminator sliceBlock
    rw [split]
    simp [isMarked, isTerm]

/-- Why a terminator may be in the slice. -/
inductive TerminatorNeeded (M : Module) (s : SDG) (criterion : List InstId)
    (marked : List NodePtr) (F : Function) (B : BasicBlock) (T : Instruction) : Prop where
  | criterion (listed : T.id ∈ criterion)
  | controls {D : BasicBlock} {I : Instruction} (hD : D ∈ M.blocks)
      (edge : s.cdg.Connected (some B.id) (some D.id)) (hI : I ∈ D.insts)
      (kept : .inst I.id ∈ marked)
  | returns {I : Instruction} (isRet : T.opcode = .ret) (hI : I ∈ M.insts) (call : CallTo M I F)
      (kept : .inst I.id ∈ marked)
  | used {I : Instruction} (hI : I ∈ M.insts) (operand : .inst T.id ∈ I.operands)
      (kept : .inst I.id ∈ marked)

variable {A : Analyses} {M : Module} {s : SDG}

theorem terminator_not {T : Instruction} (isTerm : T.isTerminator = true) :
    T.opcode ≠ .call ∧ T.opcode ≠ .store := by
  unfold Instruction.isTerminator at isTerm
  constructor <;> intro same <;> simp [same] at isTerm

theorem dependence_on_terminator {cdg : CDG.Graph} {F : Function} {B : BasicBlock}
    {T : Instruction} (hF : F ∈ M.functions) (hB : B ∈ F.blocks) (term : B.getTerminator = some T)
    {b : NodePtr} (dep : Dependence A M cdg (.inst T.id) b) :
    (∃ D ∈ M.blocks, cdg.Connected (some B.id) (some D.id) ∧ ∃ I ∈ D.insts, b = .inst I.id) ∨
    (∃ I ∈ M.insts, .inst T.id ∈ I.operands ∧ b = .inst I.id) ∨
    (T.opcode = .ret ∧ b = .calleeOutput F.id) := by
  obtain ⟨inB, isTerm⟩ := terminator_mem term
  have hBM : B ∈ M.blocks := mem_blocks.mpr ⟨F, hF, hB⟩
  have hT : T ∈ M.insts := insts_of_block hBM inB
  obtain ⟨notCall, notStore⟩ := terminator_not isTerm
  generalize source : NodePtr.inst T.id = a at dep
  cases dep with
  | @control S D T' I hS hD edge term' hI =>
    have same : T = T' :=
      inst_eq hT (insts_of_block hS (terminator_mem term').1) (NodePtr.inst.inj source)
    have block : B = S := inst_block_eq hBM hS inB (same ▸ (terminator_mem term').1)
    exact Or.inl ⟨D, hD, block ▸ edge, I, hI, rfl⟩
  | @call I G hI call | @actual I G _ hI call _ | @returned I G hI call =>
    have same : T = I := inst_eq hT hI (NodePtr.inst.inj source)
    exact absurd (same ▸ call.isCall) notCall
  | @operand I j hI used =>
    exact Or.inr (Or.inl ⟨I, hI, NodePtr.inst.inj source ▸ used, rfl⟩)
  | @ret G I hG hI isRet =>
    have same : T = I := inst_eq hT (mem_module_insts.mpr ⟨G, hG, hI⟩) (NodePtr.inst.inj source)
    have function : F = G :=
      inst_function_eq hF hG (mem_insts.mpr ⟨B, hB, inB⟩) (same ▸ hI)
    exact Or.inr (Or.inr ⟨same ▸ isRet, function ▸ rfl⟩)
  | @memory S L d hS store hL isLoad used =>
    have same : T = S := inst_eq hT hS (NodePtr.inst.inj source)
    exact absurd (same ▸ store.1) notStore
  | _ => cases source

theorem call_of_output_marked (run : runOnModule A M = some s) {criterion : List InstId}
    {I : Instruction} (hI : I ∈ M.insts)
    (marked : BackMarked s criterion (.callerOutput I.id (.inst I.id))) :
    BackMarked s criterion (.inst I.id) := by
  rcases backMarked_succ run marked with ⟨c, _, same⟩ | ⟨b, dep, next⟩
  · cases same
  · generalize source : NodePtr.callerOutput I.id (.inst I.id) = a at dep
    cases dep with
    | @callReturn J hJ isCall =>
      have eq : I = J := inst_eq hI hJ (NodePtr.callerOutput.inj source).1
      exact eq ▸ next
    | _ => cases source

theorem caller_of_output_marked (run : runOnModule A M = some s) {criterion : List InstId}
    {F : Function} (hF : F ∈ M.functions)
    (marked : BackMarked s criterion (.calleeOutput F.id)) :
    ∃ I ∈ M.insts, CallTo M I F ∧ BackMarked s criterion (.inst I.id) := by
  rcases backMarked_succ run marked with ⟨c, _, same⟩ | ⟨b, dep, next⟩
  · cases same
  · generalize source : NodePtr.calleeOutput F.id = a at dep
    cases dep with
    | @paramOut I G hI call =>
      have eq : F = G := function_eq hF call.inModule (NodePtr.calleeOutput.inj source)
      exact ⟨I, hI, eq ▸ call, call_of_output_marked run hI next⟩
    | _ => cases source

theorem terminator_marked_iff (run : runOnModule A M = some s) {criterion : List InstId}
    {marked : List NodePtr} (mem : ∀ n, n ∈ marked ↔ BackMarked s criterion n)
    {F : Function} {B : BasicBlock} {T : Instruction} (hF : F ∈ M.functions) (hB : B ∈ F.blocks)
    (term : B.getTerminator = some T) :
    .inst T.id ∈ marked ↔ TerminatorNeeded M s criterion marked F B T := by
  have hBM : B ∈ M.blocks := mem_blocks.mpr ⟨F, hF, hB⟩
  constructor
  · intro isMarked
    rcases backMarked_succ run ((mem _).mp isMarked) with ⟨c, hc, same⟩ | ⟨b, dep, next⟩
    · exact .criterion (NodePtr.inst.inj same ▸ hc)
    · rcases dependence_on_terminator hF hB term dep with ⟨D, hD, edge, I, hI, rfl⟩ |
        ⟨I, hI, used, rfl⟩ | ⟨isRet, rfl⟩
      · exact .controls hD edge hI ((mem _).mpr next)
      · exact .used hI used ((mem _).mpr next)
      · obtain ⟨I, hI, call, kept⟩ := caller_of_output_marked run hF next
        exact .returns isRet hI call ((mem _).mpr kept)
  · intro needed
    rw [mem]
    cases needed with
    | criterion listed => exact ⟨T.id, listed, _, .refl, .refl⟩
    | controls hD edge hI kept =>
      exact backMarked_pred run (.control hBM hD edge term hI) (by simp [letter]) ((mem _).mp kept)
    | returns isRet hI call kept =>
      have output := callee_output_marked run hI call ((mem _).mp kept)
      have inF : T ∈ F.insts := mem_insts.mpr ⟨B, hB, (terminator_mem term).1⟩
      exact backMarked_pred run (.ret hF inF isRet) (by simp [letter]) output
    | used hI operand kept =>
      exact backMarked_pred run (.operand hI operand) (by simp [letter]) ((mem _).mp kept)

end Terminators

/-- A block that is left over ends with a terminator exactly when its own
    terminator is needed; unconditional branches and void returns often are not. -/
theorem slicedBlock_terminated_iff {A : Analyses} {M : Module} {s : SDG} (verified : M.Verified)
    (run : runOnModule A M = some s) (ord : Order NodePtr) (criterion : List InstId) :
    ∃ marked, BackSlice.markVerticesOfBackSlice ord s (criterion.map .inst) = some marked ∧
      ∀ fs, BackSlice.sliceModule s marked M = some fs → ∀ G ∈ fs, ∀ B' ∈ G.blocks,
        ∃ F ∈ M.functions, G = sliceFunction marked F ∧ ∃ B ∈ F.blocks,
          B' = sliceBlock marked B ∧ ∃ T, B.getTerminator = some T ∧
            ((∃ T', B'.getTerminator = some T') ↔
              TerminatorNeeded M s criterion marked F B T) := by
  obtain ⟨marked, mark, mem⟩ := backMarked_of_run run ord criterion
  refine ⟨marked, mark, fun fs slice G hG B' hB' => ?_⟩
  obtain ⟨F, hF, _, rfl⟩ := (backSlice_functions slice G).mp hG
  obtain ⟨B, hB, rfl⟩ := List.mem_map.mp hB'
  have hBM : B ∈ M.blocks := mem_blocks.mpr ⟨F, hF, hB⟩
  obtain ⟨T, term, _⟩ := terminator_last verified hBM
  refine ⟨F, hF, rfl, B, hB, rfl, T, term, ?_⟩
  rw [sliced_terminator_iff verified hBM term]
  exact terminator_marked_iff run mem hF hB term

theorem passedOn_terminated : ∃ s, runOnModule blockPerFunction passedOn = some s ∧
    ∃ marked, BackSlice.markVerticesOfBackSlice Order.head s [.inst 4] = some marked ∧
      ∀ fs, BackSlice.sliceModule s marked passedOn = some fs → ∀ G ∈ fs, ∀ B' ∈ G.blocks,
        ∃ F ∈ passedOn.functions, G = sliceFunction marked F ∧ ∃ B ∈ F.blocks,
          B' = sliceBlock marked B ∧ ∃ T, B.getTerminator = some T ∧
            ((∃ T', B'.getTerminator = some T') ↔
              TerminatorNeeded passedOn s [4] marked F B T) := by
  obtain ⟨s, run⟩ := passedOn_completes
  exact ⟨s, run, slicedBlock_terminated_iff (by decide) run Order.head [4]⟩

def straightLine : Module where
  functions := [
    { id := 0
      blocks := [⟨0, 0, [{ id := 0, opcode := .other }, { id := 1, opcode := .ret }]⟩] }]
  func_nodup := by decide
  block_nodup := by decide
  inst_nodup := by decide
  arg_nodup := by decide
  parent_eq := by decide

theorem straightLine_unterminated : straightLine.Verified ∧
    blockPerFunction.Correct straightLine ∧
    ∃ fs, BackSlice.runOnModule Order.head blockPerFunction straightLine [0] = some fs ∧
      ∃ G ∈ fs, ∃ B ∈ G.blocks, B.insts ≠ [] ∧ B.getTerminator = none := by
  refine ⟨by decide, singleBlocks_correct rfl (by decide),
    [⟨0, [], [⟨0, 0, [{ id := 0, opcode := .other }]⟩]⟩], by decide, ?_⟩
  exact ⟨_, List.mem_singleton_self _, _, List.mem_singleton_self _, by decide, rfl⟩

end ProgramSlicer
