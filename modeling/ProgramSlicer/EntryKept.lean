import ProgramSlicer.KeptFunctions

/-!
Which control-flow graphs keep a function's entry node in every slice that
holds one of its instructions. `CDG::runOnFunction` gives an edge from ENTRY to
the blocks without any dependence; a block that every run passes and that lies
on a cycle depends on itself, so neither it nor its region gets that edge.
-/
namespace ProgramSlicer
open CallStrings ClosureMarking SDG ControlDependence FoldRules

structure Cfg where
  blocks : List (BlockId × List BlockId)
  nodup : (blocks.map Prod.fst).Nodup
  inside : ∀ b ∈ blocks, ∀ c ∈ b.2, c ∈ blocks.map Prod.fst
  first : BlockId
  head : (blocks.map Prod.fst).head? = some first

namespace Cfg

def Edge (g : Cfg) (b c : BlockId) : Prop := ∃ x ∈ g.blocks, x.1 = b ∧ c ∈ x.2

structure Connected (g : Cfg) : Prop where
  reachable : ∀ b ∈ g.blocks, Relation.ReflTransGen g.Edge g.first b.1
  exits : ∀ b ∈ g.blocks, ReachesExit g.Edge b.1

end Cfg

def Function.HasCfg (F : Function) (g : Cfg) : Prop :=
  F.blocks.map (fun B => (B.id, B.successors)) = g.blocks

theorem edge_of_cfg {F : Function} {g : Cfg} (same : F.HasCfg g) : F.Edge = g.Edge := by
  funext b c
  unfold Function.Edge Cfg.Edge
  rw [← same]
  simp

/-- Whenever an instruction of a function with this graph is in a backward
    slice, so is the function's entry, and the function stays. -/
def KeepsEntry (g : Cfg) : Prop :=
  ∀ (A : Analyses) (M : Module) (s : SDG), A.Correct M → M.Verified → runOnModule A M = some s →
    ∀ (ord : Order NodePtr) (criterion : List InstId) (marked : List NodePtr),
      BackSlice.markVerticesOfBackSlice ord s (criterion.map .inst) = some marked →
      ∀ F ∈ M.functions, F.HasCfg g → ∀ I ∈ F.insts, .inst I.id ∈ marked →
        .entry F.id ∈ marked ∧ BackSlice.functionKept s marked F = true

section Keeps
variable {A : Analyses} {M : Module} {s : SDG}

theorem entry_of_chain (correct : A.Correct M) (verified : M.Verified)
    (run : runOnModule A M = some s) {F : Function} (hF : F ∈ M.functions)
    {criterion : List InstId} {r b : BlockId} (free : ∀ x, ¬ DependsOn F.Edge r x)
    (chain : Relation.ReflTransGen (fun x y => DependsOn F.Edge y x) r b) :
    ∀ B ∈ F.blocks, B.id = b → ∀ I ∈ B.insts, BackMarked s criterion (.inst I.id) →
      BackMarked s criterion (.entry F.id) := by
  obtain ⟨cdg, exits⟩ := runOnModule_cdg correct verified run
  induction chain with
  | refl =>
    intro B hB same I hI marked
    have edge : s.cdg.Connected none (some B.id) :=
      (cdg _ _).mpr ⟨F, hF, .entry hB (same ▸ free)⟩
    have dep : Dependence A M s.cdg (.entry B.parent) (.inst I.id) :=
      .entryControl (mem_blocks.mpr ⟨F, hF, hB⟩) edge hI
    rw [M.parent_eq F hF B hB] at dep
    exact backMarked_pred run dep (by simp [letter]) marked
  | @tail x y _ dep ih =>
    intro B hB same I hI marked
    have edge : CDG.ControlEdge F (some x) (some B.id) := .dep (same ▸ dep)
    obtain ⟨S, hS, hx⟩ :=
      (CDG.controlEdge_inside (verified.successor_local F hF) (exits F hF) edge).2 x rfl
    have hSM : S ∈ M.blocks := mem_blocks.mpr ⟨F, hF, hS⟩
    obtain ⟨T, term, _⟩ := terminator_last verified hSM
    have control : Dependence A M s.cdg (.inst T.id) (.inst I.id) :=
      .control hSM (mem_blocks.mpr ⟨F, hF, hB⟩) ((cdg _ _).mpr ⟨F, hF, hx ▸ edge⟩) term hI
    exact ih S hS hx.symm T (terminator_mem term).1
      (backMarked_pred run control (by simp [letter]) marked)

theorem keepsEntry_of_grounded {g : Cfg} (ground : ∀ b ∈ g.blocks, Grounded g.Edge b.1) :
    KeepsEntry g := by
  intro A M s correct verified run ord criterion marked mark F hF same I hI isMarked
  obtain ⟨marked', mark', mem⟩ := backMarked_of_run run ord criterion
  obtain rfl := Option.some.inj (mark.symm.trans mark')
  obtain ⟨B, hB, hIB⟩ := mem_insts.mp hI
  have inCfg : (B.id, B.successors) ∈ g.blocks := by
    rw [← same]
    exact List.mem_map_of_mem hB
  obtain ⟨r, free, chain⟩ := ground _ inCfg
  rw [← edge_of_cfg same] at free chain
  have entry : .entry F.id ∈ marked := (mem _).mpr (entry_of_chain correct verified run hF free
    chain B hB rfl I hIB ((mem _).mp isMarked))
  exact ⟨entry, kept_of_entry entry⟩

end Keeps

/-! A program of nothing but terminators, to show that a cut chain does lose the entry. -/

section Completes
variable {A : Analyses} {M : Module}

abbrev Found (i : InstId) (s : SDG) : Prop := (s.instNodeMap.find i).isSome = true

theorem found_insert {i j : InstId} {s : SDG} (h : i = j ∨ Found i s) : Found i (s.insertInst j) := by
  unfold Found SDG.insertInst NodeMap.insert at *
  simp only
  split
  · rename_i known
    rcases h with rfl | old
    · exact known
    · exact old
  · rcases h with rfl | old
    · simp [NodeMap.find]
    · unfold NodeMap.find at old ⊢
      rw [List.find?_cons]
      split
      · rfl
      · exact old

theorem controlBlock_keeps {i : InstId} (src : NodePtr) (D : BasicBlock) {s : SDG}
    (h : Found i s) : Found i (controlBlock src D s) := by
  refine foldl_keeps (P := Found i) ?_ h
  intro I _ t found
  exact found_insert (Or.inr found)

theorem controlBlock_finds (src : NodePtr) (D : BasicBlock) {I : Instruction} (hI : I ∈ D.insts)
    (s : SDG) : Found I.id (controlBlock src D s) := by
  obtain ⟨before, after, split⟩ := List.append_of_mem hI
  unfold controlBlock
  rw [split, List.foldl_append, List.foldl_cons]
  refine foldl_keeps (P := Found I.id) ?_ (found_insert (Or.inl rfl))
  intro J _ t found
  exact found_insert (Or.inr found)

theorem controlPred_found {D : BasicBlock} {s s' : SDG} {pred : Option BlockId}
    (run : controlPred M D s pred = some s') :
    (∀ i, Found i s → Found i s') ∧ ∀ I ∈ D.insts, Found I.id s' := by
  cases pred with
  | none =>
    rw [controlPred_entry run]
    exact ⟨fun i h => controlBlock_keeps (.entry D.parent) D h, fun I hI => controlBlock_finds _ D hI _⟩
  | some S =>
    obtain ⟨B, T, _, _, rfl⟩ := controlPred_block run
    exact ⟨fun i h => controlBlock_keeps (.inst T.id) D (found_insert (Or.inr h)),
      fun I hI => controlBlock_finds _ D hI _⟩

theorem controlNode_found {cdg : CDG.Graph} {s s' : SDG} {n : Option BlockId}
    (run : controlNode M cdg s n = some s') :
    (∀ i, Found i s → Found i s') ∧ ∀ D ∈ M.blocks, n = some D.id →
      (∃ pred, cdg.Connected pred (some D.id)) → ∀ I ∈ D.insts, Found I.id s' := by
  rcases controlNode_cases run with ⟨rfl, rfl⟩ | ⟨D, hD, rfl, preds⟩
  · exact ⟨fun i h => h, fun D _ same => by cases same⟩
  · constructor
    · intro i h
      exact foldlM_keeps (P := Found i) (fun pred _ t t' one => (controlPred_found one).1 i) preds h
    · intro C hC same ⟨pred, conn⟩ I hI
      have eq : D = C := block_eq hD hC (Option.some.inj same)
      refine foldlM_establishes (P := Found I.id)
        (fun p _ t t' one => (controlPred_found one).1 I.id)
        (DirectedGraph.pred_keys.mpr (same ▸ conn)) (fun t t' one => ?_) preds
      exact (controlPred_found one).2 I (eq ▸ hI)

theorem controlNode_total {cdg : CDG.Graph} (verified : M.Verified) {n : Option BlockId}
    (node : ∀ b, n = some b → ∃ D ∈ M.blocks, D.id = b)
    (source : ∀ b x, cdg.Connected (some x) (some b) → ∃ S ∈ M.blocks, S.id = x) (s : SDG) :
    ∃ s', controlNode M cdg s n = some s' := by
  cases n with
  | none => exact ⟨s, rfl⟩
  | some b =>
    obtain ⟨D, hD, same⟩ := node b rfl
    obtain ⟨s', run, _⟩ := foldlM_total (P := fun _ : SDG => True)
      (f := controlPred M D) (l := (cdg.getPredSet (some b)).map Prod.fst) (s := s)
      (fun pred mem t _ => by
        cases pred with
        | none => exact ⟨_, rfl, trivial⟩
        | some x =>
          obtain ⟨S, hS, key⟩ := source b x (DirectedGraph.pred_keys.mp mem)
          obtain ⟨T, term, _⟩ := terminator_last verified hS
          refine ⟨controlBlock (.inst T.id) D (t.insertInst T.id), ?_, trivial⟩
          simp [controlPred, block_lookup.mpr ⟨hS, key⟩, term]) trivial
    refine ⟨s', ?_⟩
    simp only [controlNode, block_lookup.mpr ⟨hD, same⟩]
    exact run

theorem calleeAux_instNodeMap (F : Function) (s : SDG) :
    (calleeAux F s).instNodeMap = s.instNodeMap := by
  have inputs : ∀ t : SDG, (F.args.foldl (calleeInput F.id) t).instNodeMap = t.instNodeMap := by
    intro t
    refine foldl_keeps (P := fun u : SDG => u.instNodeMap = t.instNodeMap) ?_ rfl
    exact fun a _ u same => same
  exact inputs _

theorem stepOne_found {F : Function} (hF : F ∈ M.functions) {s s' : SDG}
    (listed : s.cdg.NodesListed) (run : stepOne A M s F = some s') :
    (∀ i, Found i s → Found i s') ∧ ∀ I ∈ F.insts, Found I.id s' := by
  rcases stepOne_cases run with ⟨declared, rfl⟩ | ⟨_, cdg, t, cdgRun, nodes, same⟩
  · refine ⟨fun i h => h, fun I hI => ?_⟩
    obtain ⟨B, hB, _⟩ := mem_insts.mp hI
    simp [no_blocks_of_declaration declared] at hB
  · unfold Found
    rw [same, calleeAux_instNodeMap]
    constructor
    · intro i h
      exact foldlM_keeps (P := Found i) (fun n _ u u' one => (controlNode_found one).1 i) nodes h
    · intro I hI
      obtain ⟨B, hB, hIB⟩ := mem_insts.mp hI
      obtain ⟨x, edge⟩ := CDG.runOnFunction_pred cdgRun hB
      have inNodes := ((CDG.runOnFunction_grows cdgRun).listed listed _ _ edge).2
      exact foldlM_establishes (f := controlNode M cdg) (P := Found I.id)
        (fun n _ u u' one => (controlNode_found one).1 I.id) inNodes
        (fun u u' one => (controlNode_found one).2 B (mem_blocks.mpr ⟨F, hF, hB⟩) rfl
          ⟨x, edge⟩ I hIB) nodes

/-- The block graph has edges between blocks of the module and no other nodes. -/
structure BlocksOnly (M : Module) (g : CDG.Graph) : Prop where
  used : g.NodesUsed
  inside : ∀ a b, g.Connected a b → (∃ B ∈ M.blocks, b = some B.id) ∧
    ∀ x, a = some x → ∃ C ∈ M.blocks, x = C.id

theorem blocksOnly_start (M : Module) : BlocksOnly M {} :=
  ⟨DirectedGraph.nodesUsed_empty, fun _ _ edge => absurd edge (DirectedGraph.not_connected_empty _ _)⟩

theorem runOnFunction_blocksOnly {F : Function} (hF : F ∈ M.functions)
    (correct : (A.pdt F.id).Correct F) (verified : M.Verified) {g g' : CDG.Graph}
    (run : CDG.runOnFunction (A.pdt F.id) F g = some g') (before : BlocksOnly M g) :
    BlocksOnly M g' := by
  refine ⟨(CDG.runOnFunction_grows run).used before.used, ?_⟩
  intro a b edge
  rcases CDG.runOnFunction_inside correct (verified.successor_local F hF) run edge with
    old | ⟨⟨B, hB, target⟩, source⟩
  · exact before.inside a b old
  · refine ⟨⟨B, mem_blocks.mpr ⟨F, hF, hB⟩, target⟩, ?_⟩
    intro x same
    obtain ⟨C, hC, key⟩ := source x same
    exact ⟨C, mem_blocks.mpr ⟨F, hF, hC⟩, key⟩

theorem stepOne_total {F : Function} (hF : F ∈ M.functions) (correct : (A.pdt F.id).Correct F)
    (verified : M.Verified) (exits : ∀ B ∈ F.blocks, ReachesExit F.Edge B.id) {s : SDG}
    (before : BlocksOnly M s.cdg) : ∃ s', stepOne A M s F = some s' ∧ BlocksOnly M s'.cdg := by
  have total : ∃ s', stepOne A M s F = some s' := by
    unfold stepOne
    split
    · exact ⟨s, rfl⟩
    · obtain ⟨cdg, cdgRun⟩ :=
        CDG.runOnFunction_total correct (verified.successor_local F hF) exits s.cdg
      have after := runOnFunction_blocksOnly hF correct verified cdgRun before
      have source : ∀ b x, cdg.Connected (some x) (some b) → ∃ S ∈ M.blocks, S.id = x := by
        intro b x edge
        obtain ⟨C, hC, same⟩ := (after.inside _ _ edge).2 x rfl
        exact ⟨C, hC, same.symm⟩
      have node : ∀ n ∈ cdg.getNodeSet, ∀ b, n = some b → ∃ D ∈ M.blocks, D.id = b := by
        rintro n mem b rfl
        obtain ⟨m, edge | edge⟩ := after.used _ mem
        · obtain ⟨C, hC, same⟩ := (after.inside _ _ edge).2 b rfl
          exact ⟨C, hC, same.symm⟩
        · obtain ⟨B, hB, same⟩ := (after.inside _ _ edge).1
          exact ⟨B, hB, (Option.some.inj same).symm⟩
      obtain ⟨t, nodes, _⟩ := foldlM_total (P := fun _ : SDG => True) (f := controlNode M cdg)
        (l := cdg.getNodeSet) (s := { s with cdg })
        (fun n mem u _ => by
          obtain ⟨u', one⟩ := controlNode_total verified (node n mem) source u
          exact ⟨u', one, trivial⟩) trivial
      exact ⟨calleeAux F t, by rw [cdgRun]; simp [nodes]⟩
  obtain ⟨s', run⟩ := total
  refine ⟨s', run, ?_⟩
  rcases stepOne_cdg run with ⟨_, rfl⟩ | cdgRun
  · exact before
  · exact runOnFunction_blocksOnly hF correct verified cdgRun before

structure Quiet (M : Module) (F : Function) : Prop where
  single : M.functions = [F]
  silent : ∀ I ∈ F.insts, I.opcode ≠ .call ∧ I.opcode ≠ .store ∧ I.operands = []

theorem quiet_insts {F : Function} (quiet : Quiet M F) : M.insts = F.insts := by
  simp [Module.insts, quiet.single]

theorem runOnModule_quiet {F : Function} (quiet : Quiet M F)
    (correct : (A.pdt F.id).Correct F) (verified : M.Verified)
    (exits : ∀ B ∈ F.blocks, ReachesExit F.Edge B.id) : ∃ s, runOnModule A M = some s := by
  have hF : F ∈ M.functions := by simp [quiet.single]
  obtain ⟨s1, one, _⟩ := stepOne_total (s := {}) hF correct verified exits (blocksOnly_start M)
  have found := (stepOne_found hF DirectedGraph.nodesListed_empty one).2
  have insts := quiet_insts quiet
  obtain ⟨s2, two, same2⟩ := foldlM_total (P := (· = s1)) (f := stepTwo M) (l := M.insts)
    (fun I hI t same => ⟨t, by simp [stepTwo, (quiet.silent I (insts ▸ hI)).1], same⟩) rfl
  obtain ⟨s3, three, _⟩ := foldlM_total (P := fun t : SDG => t.instNodeMap = s1.instNodeMap)
    (f := intraInst F.id) (l := F.insts) (s := s2)
    (fun I hI t same => by
      have known : (t.instNodeMap.find I.id).isSome = true := by rw [same]; exact found I hI
      refine ⟨callReturnFlow I (returnFlow F.id I t), ?_, ?_⟩
      · simp [intraInst, known, (quiet.silent I hI).2.2]
      · rw [← same]
        unfold callReturnFlow returnFlow
        split <;> split <;> rfl) (by rw [same2])
  obtain ⟨s4, four, _⟩ := foldlM_total (P := fun _ : SDG => True) (f := recordStore A)
    (l := M.insts) (s := s3)
    (fun I hI t _ => ⟨t, by simp [recordStore, (quiet.silent I (insts ▸ hI)).2.1], trivial⟩) trivial
  refine ⟨generatePointerEdges M s4, ?_⟩
  unfold runOnModule generateDefNodeMap generateIntraDDG
  simp [quiet.single, one, two, three, four]

end Completes

namespace Cfg

def terminator (b : BlockId × List BlockId) : Instruction where
  id := b.1
  opcode := if b.2 = [] then .ret else .branch
  succs := b.2

def bareBlock (b : BlockId × List BlockId) : BasicBlock := ⟨b.1, 0, [terminator b]⟩

def bareFunction (g : Cfg) : Function where
  id := 0
  blocks := g.blocks.map bareBlock

theorem bareBlock_getTerminator (b : BlockId × List BlockId) :
    (bareBlock b).getTerminator = some (terminator b) := by
  have isTerm : (terminator b).isTerminator = true := by
    unfold terminator Instruction.isTerminator
    split <;> rfl
  simp [BasicBlock.getTerminator, bareBlock, isTerm]

theorem bareBlock_successors (b : BlockId × List BlockId) : (bareBlock b).successors = b.2 := by
  simp [BasicBlock.successors, bareBlock_getTerminator, terminator]

variable (g : Cfg)

theorem bare_hasCfg : g.bareFunction.HasCfg g := by
  unfold Function.HasCfg bareFunction
  rw [List.map_map]
  refine List.map_id'' (fun b => ?_) g.blocks
  rw [Function.comp_apply, bareBlock_successors]
  rfl

theorem bare_insts : g.bareFunction.insts = g.blocks.map terminator := by
  unfold Function.insts bareFunction
  rw [List.flatMap_map, List.map_eq_flatMap]
  rfl

def bare : Module where
  functions := [g.bareFunction]
  func_nodup := by simp
  block_nodup := by simpa [bareFunction, Function.comp_def, bareBlock] using g.nodup
  inst_nodup := by simpa [bare_insts, Function.comp_def, terminator] using g.nodup
  arg_nodup := by simp [bareFunction]
  parent_eq := by
    intro F hF B hB
    rw [List.mem_singleton] at hF
    rw [hF] at hB ⊢
    obtain ⟨b, _, rfl⟩ := List.mem_map.mp hB
    rfl

theorem bare_quiet : Quiet g.bare g.bareFunction where
  single := rfl
  silent I hI := by
    rw [bare_insts] at hI
    obtain ⟨b, _, rfl⟩ := List.mem_map.mp hI
    unfold terminator
    split <;> simp

theorem bare_verified : g.bare.Verified := by
  refine ⟨fun B hB => ?_, fun F hF B hB c hc => ?_, fun F hF I hI v hv => ?_⟩
  · obtain ⟨F, hF, hBF⟩ := mem_blocks.mp hB
    rw [List.mem_singleton.mp hF] at hBF
    obtain ⟨b, _, rfl⟩ := List.mem_map.mp hBF
    rw [bareBlock_getTerminator]
    exact ⟨rfl, fun I hI => by simp [bareBlock] at hI⟩
  · rw [List.mem_singleton.mp hF] at hB ⊢
    obtain ⟨b, hb, rfl⟩ := List.mem_map.mp hB
    rw [bareBlock_successors] at hc
    obtain ⟨x, hx, same⟩ := List.mem_map.mp (g.inside b hb c hc)
    exact ⟨bareBlock x, List.mem_map_of_mem hx, same⟩
  · rw [List.mem_singleton.mp hF] at hI
    rw [((bare_quiet g).silent I hI).2.2] at hv
    cases hv

end Cfg

section Loses
variable {A : Analyses} {g : Cfg} {s : SDG}

theorem ungrounded_pred (correct : A.Correct g.bare) (run : runOnModule A g.bare = some s)
    {a : NodePtr} {b : BlockId} (lost : ¬ Grounded g.Edge b)
    (dep : Dependence A g.bare s.cdg a (.inst b)) :
    ∃ x, a = .inst x ∧ ¬ Grounded g.Edge x := by
  obtain ⟨cdg, _⟩ := runOnModule_cdg correct (Cfg.bare_verified g) run
  have quiet := Cfg.bare_quiet g
  have edges := edge_of_cfg (Cfg.bare_hasCfg g)
  have inBare : ∀ {D : BasicBlock}, D ∈ g.bare.blocks → ∃ x, D = Cfg.bareBlock x := by
    intro D hD
    obtain ⟨F, hF, hDF⟩ := mem_blocks.mp hD
    rw [List.mem_singleton.mp hF] at hDF
    obtain ⟨x, _, same⟩ := List.mem_map.mp hDF
    exact ⟨x, same.symm⟩
  have silent : ∀ {I}, I ∈ g.bare.insts → I.opcode ≠ .call ∧ I.opcode ≠ .store ∧ I.operands = [] :=
    fun hI => quiet.silent _ (quiet_insts quiet ▸ hI)
  generalize target : NodePtr.inst b = n at dep
  cases dep with
  | @control S D T I hS hD edge term hI =>
    obtain ⟨x, rfl⟩ := inBare hS
    obtain ⟨y, rfl⟩ := inBare hD
    rw [Cfg.bareBlock_getTerminator] at term
    obtain rfl := Option.some.inj term
    obtain rfl := List.mem_singleton.mp hI
    obtain ⟨F, hF, edge⟩ := (cdg _ _).mp edge
    rw [List.mem_singleton.mp hF] at edge
    have same : b = y.1 := NodePtr.inst.inj target
    cases edge with
    | dep depends =>
      rw [edges] at depends
      exact ⟨x.1, rfl, fun ground => lost (same ▸ grounded_step ground depends)⟩
  | @entryControl D I hD edge hI =>
    obtain ⟨y, rfl⟩ := inBare hD
    obtain rfl := List.mem_singleton.mp hI
    obtain ⟨F, hF, edge⟩ := (cdg _ _).mp edge
    rw [List.mem_singleton.mp hF] at edge
    have same : b = y.1 := NodePtr.inst.inj target
    generalize block : some (Cfg.bareBlock y).id = o at edge
    cases edge with
    | @entry B hB free =>
      have key : B.id = y.1 := (Option.some.inj block).symm
      rw [edges, key] at free
      exact absurd ⟨y.1, free, .refl⟩ (same ▸ lost)
  | @operand I j hI used =>
    rw [(silent hI).2.2] at used
    cases used
  | @argument I f hI used =>
    rw [(silent hI).2.2] at used
    cases used
  | @callReturn I hI isCall => exact absurd isCall (silent hI).1
  | @memory S L d hS store hL isLoad used =>
    rw [(silent hL).2.2] at used
    cases used
  | _ => cases target

theorem ungrounded_path (correct : A.Correct g.bare) (run : runOnModule A g.bare = some s)
    {allow : Letter InstId → Prop} {a n : NodePtr} (path : Along (Labelled s) allow a n)
    (lost : ∃ b, n = .inst b ∧ ¬ Grounded g.Edge b) :
    ∃ b, a = .inst b ∧ ¬ Grounded g.Edge b := by
  induction path using Relation.ReflTransGen.head_induction_on with
  | refl => exact lost
  | head edge _ ih =>
    obtain ⟨l, _, edge⟩ := edge
    obtain ⟨b, rfl, lostB⟩ := ih
    have conn := ((labelled_iff (runOnModule_built run)).mp edge).1
    exact ungrounded_pred correct run lostB ((runOnModule_conn run _ _).mp conn)

theorem entry_lost (correct : A.Correct g.bare) (run : runOnModule A g.bare = some s)
    {b : BlockId} (lost : ¬ Grounded g.Edge b) (f : FuncId) :
    ¬ BackMarked s [b] (.entry f) := by
  intro ⟨c, hc, m, up, down⟩
  rw [List.mem_singleton.mp hc] at down
  obtain ⟨x, same, _⟩ := ungrounded_path correct run up
    (ungrounded_path correct run down ⟨b, rfl, lost⟩)
  cases same

end Loses

/-- A control-flow graph keeps the entry of its functions in every slice of
    every program exactly if no block that all runs pass lies on a cycle. -/
theorem keepsEntry_iff (g : Cfg) (connected : g.Connected)
    (tree : ∃ t : PostDominatorTree, t.Correct g.bareFunction) :
    KeepsEntry g ↔ ∀ b, PostDominates g.Edge b g.first → ¬ Relation.TransGen g.Edge b b := by
  have exits : ∀ {x y}, g.Edge x y → ReachesExit g.Edge y := by
    intro x y ⟨b, hb, _, hy⟩
    obtain ⟨c, hc, rfl⟩ := List.mem_map.mp (g.inside b hb y hy)
    exact connected.exits c hc
  have reach : ∀ {x y}, g.Edge x y → Relation.ReflTransGen g.Edge g.first x := by
    intro x y ⟨b, hb, same, _⟩
    exact same ▸ connected.reachable b hb
  constructor
  · intro keeps b dom cycle
    obtain ⟨c, ⟨x, hx, rfl, _⟩, _⟩ := Relation.TransGen.head'_iff.mp cycle
    have lost := not_grounded_of_cycle exits reach dom cycle
    obtain ⟨t, correct⟩ := tree
    have trees : Analyses.Correct ⟨fun _ => t, fun _ => []⟩ g.bare := by
      intro F hF
      rw [List.mem_singleton.mp hF]
      exact correct
    have reaches : ∀ B ∈ g.bareFunction.blocks, ReachesExit g.bareFunction.Edge B.id := by
      intro B hB
      obtain ⟨y, hy, rfl⟩ := List.mem_map.mp hB
      rw [edge_of_cfg g.bare_hasCfg]
      exact connected.exits y hy
    obtain ⟨s, run⟩ := runOnModule_quiet (A := ⟨fun _ => t, fun _ => []⟩) g.bare_quiet correct
      g.bare_verified reaches
    obtain ⟨marked, mark, mem⟩ := backMarked_of_run run Order.head [x.1]
    have criterion : .inst x.1 ∈ marked := (mem _).mpr ⟨x.1, by simp, _, .refl, .refl⟩
    have hI : Cfg.terminator x ∈ g.bareFunction.insts := by
      rw [g.bare_insts]
      exact List.mem_map_of_mem hx
    have kept := keeps _ _ s trees g.bare_verified run Order.head [x.1] marked mark
      g.bareFunction (List.mem_singleton_self _) g.bare_hasCfg _ hI criterion
    exact entry_lost trees run lost _ ((mem _).mp kept.1)
  · intro acyclic
    have ground := (all_grounded_iff exits reach).mpr (fun b _ => acyclic b)
    exact keepsEntry_of_grounded fun b hb => ground b.1 (connected.reachable b hb)

def oneLoop : Cfg where
  blocks := [(0, [1]), (1, [1, 2]), (2, [])]
  nodup := by decide
  inside := by decide
  first := 0
  head := rfl

def oneLoopTree : PostDominatorTree where
  getNode
    | 0 => some (.child (some 0) (.child (some 1) (.root (some 2))))
    | 1 => some (.child (some 1) (.root (some 2)))
    | 2 => some (.root (some 2))
    | _ => none

theorem oneLoop_edge {b c : Nat} :
    oneLoop.Edge b c ↔ (b = 0 ∧ c = 1) ∨ (b = 1 ∧ (c = 1 ∨ c = 2)) := by
  simp only [Cfg.Edge, oneLoop, List.mem_cons, List.not_mem_nil, or_false, or_and_right,
    exists_or, exists_eq_left, eq_comm (b := b), and_false]

theorem oneLoop_exit (b : Nat) (other : b ≠ 0) (notLoop : b ≠ 1) : Exit oneLoop.Edge b := by
  intro c edge
  rcases oneLoop_edge.mp edge with ⟨same, _⟩ | ⟨same, _⟩
  · exact other same
  · exact notLoop same

theorem oneLoop_two_dominates {b : Nat} (inside : b ≤ 2) : PostDominates oneLoop.Edge 2 b := by
  intro miss
  induction miss with
  | @exit b other stop =>
    have cases : b = 0 ∨ b = 1 := by omega
    rcases cases with rfl | rfl
    · exact stop 1 (oneLoop_edge.mpr (by simp))
    · exact stop 1 (oneLoop_edge.mpr (by simp))
  | step _ edge _ ih =>
    refine ih ?_
    rcases oneLoop_edge.mp edge with ⟨_, rfl⟩ | ⟨_, rfl | rfl⟩ <;> omega

theorem oneLoop_postDominates {d b : Nat} (inside : b ≤ 2) :
    PostDominates oneLoop.Edge d b ↔ b ≤ d ∧ d ≤ 2 := by
  have missTwo : d ≠ 2 → Misses oneLoop.Edge d 2 := fun other =>
    .exit other.symm (oneLoop_exit 2 (by omega) (by omega))
  have missOne : d ≠ 1 → d ≠ 2 → Misses oneLoop.Edge d 1 := fun one two =>
    .step one.symm (oneLoop_edge.mpr (by simp)) (missTwo two)
  have missZero : d ≠ 0 → d ≠ 1 → d ≠ 2 → Misses oneLoop.Edge d 0 := fun zero one two =>
    .step zero.symm (oneLoop_edge.mpr (by simp)) (missOne one two)
  have oneZero : PostDominates oneLoop.Edge 1 0 := by
    intro miss
    cases miss with
    | exit _ stop => exact stop 1 (oneLoop_edge.mpr (by simp))
    | step _ edge tail =>
      rcases oneLoop_edge.mp edge with ⟨_, rfl⟩ | ⟨same, _⟩
      · exact misses_ne tail rfl
      · cases same
  constructor
  · intro dom
    by_contra outside
    have cases : b = 0 ∨ b = 1 ∨ b = 2 := by omega
    rcases cases with rfl | rfl | rfl
    · exact dom (missZero (by omega) (by omega) (by omega))
    · exact dom (missOne (by omega) (by omega))
    · exact dom (missTwo (by omega))
  · intro ⟨above, below⟩
    have cases : d = 2 ∨ d = b ∨ (d = 1 ∧ b = 0) := by omega
    rcases cases with rfl | rfl | ⟨rfl, rfl⟩
    · exact oneLoop_two_dominates inside
    · exact postdominates_refl d
    · exact oneZero

theorem oneLoop_node {b : Nat} {n : DomTreeNode} (node : oneLoopTree.getNode b = some n) :
    (b = 0 ∧ n = .child (some 0) (.child (some 1) (.root (some 2)))) ∨
    (b = 1 ∧ n = .child (some 1) (.root (some 2))) ∨ (b = 2 ∧ n = .root (some 2)) := by
  unfold oneLoopTree at node
  simp only at node
  split at node <;> simp_all

theorem oneLoop_reachesExit {b : Nat} (inside : b ≤ 2) : ReachesExit oneLoop.Edge b := by
  have two : ReachesExit oneLoop.Edge 2 := .exit (oneLoop_exit 2 (by omega) (by omega))
  have one : ReachesExit oneLoop.Edge 1 := .step (oneLoop_edge.mpr (by simp)) two
  have cases : b = 0 ∨ b = 1 ∨ b = 2 := by omega
  rcases cases with rfl | rfl | rfl
  · exact .step (oneLoop_edge.mpr (by simp)) one
  · exact one
  · exact two

theorem oneLoopTree_correct {F : Function} (same : F.HasCfg oneLoop) : oneLoopTree.Correct F := by
  have ids : ∀ b : Nat, (∃ B ∈ F.blocks, B.id = b) ↔ b ≤ 2 := by
    intro b
    have keys : F.blocks.map (·.id) = [0, 1, 2] := by
      have := congrArg (List.map Prod.fst) same
      simpa [Function.comp_def, oneLoop] using this
    rw [← List.mem_map, keys]
    constructor
    · intro mem
      have cases : b = 0 ∨ b = 1 ∨ b = 2 := by simpa using mem
      omega
    · intro inside
      have cases : b = 0 ∨ b = 1 ∨ b = 2 := by omega
      rcases cases with rfl | rfl | rfl <;> simp
  refine ⟨fun (b : Nat) => ?_, fun node => ?_, fun node up block => ?_, fun node up block => ?_,
    fun node up => ?_⟩
  · rw [ids, edge_of_cfg same]
    constructor
    · intro ⟨n, node⟩
      have inside : b ≤ 2 := by rcases oneLoop_node node with h | h | h <;> omega
      exact ⟨inside, oneLoop_reachesExit inside⟩
    · intro ⟨inside, _⟩
      have cases : b = 0 ∨ b = 1 ∨ b = 2 := by omega
      rcases cases with rfl | rfl | rfl <;> exact ⟨_, rfl⟩
  · rcases oneLoop_node node with ⟨rfl, rfl⟩ | ⟨rfl, rfl⟩ | ⟨rfl, rfl⟩ <;> rfl
  · rw [edge_of_cfg same]
    rcases oneLoop_node node with ⟨rfl, rfl⟩ | ⟨rfl, rfl⟩ | ⟨rfl, rfl⟩
    · cases up
      cases block
      simp only [ImmediatelyPostDominates, StrictlyPostDominates,
        oneLoop_postDominates (b := 0) (by omega), oneLoop_postDominates (b := 1) (by omega)]
      exact ⟨⟨by decide, fun (e : Nat) ⟨⟨low, high⟩, (other : e ≠ (0 : Nat))⟩ => by omega⟩, rfl⟩
    · cases up
      cases block
      simp only [ImmediatelyPostDominates, StrictlyPostDominates,
        oneLoop_postDominates (b := 1) (by omega), oneLoop_postDominates (b := 2) (by omega)]
      exact ⟨⟨by decide, fun (e : Nat) ⟨⟨low, high⟩, (other : e ≠ (1 : Nat))⟩ => by omega⟩, rfl⟩
    · cases up
  · rcases oneLoop_node node with ⟨rfl, rfl⟩ | ⟨rfl, rfl⟩ | ⟨rfl, rfl⟩ <;> cases up <;> cases block
  · rw [edge_of_cfg same]
    rcases oneLoop_node node with ⟨rfl, rfl⟩ | ⟨rfl, rfl⟩ | ⟨rfl, rfl⟩
    · cases up
    · cases up
    · constructor
      · intro (d : Nat) ⟨dom, (other : d ≠ (2 : Nat))⟩
        have := (oneLoop_postDominates (b := 2) (by omega)).mp dom
        omega
      · intro (c : Nat) m other
        have inside : c ≤ 2 := by rcases oneLoop_node other with h | h | h <;> omega
        exact oneLoop_two_dominates inside

theorem oneLoop_connected : oneLoop.Connected where
  reachable b hb := by
    have one : Relation.ReflTransGen oneLoop.Edge 0 1 := .single (oneLoop_edge.mpr (by simp))
    have cases : b = (0, [1]) ∨ b = (1, [1, 2]) ∨ b = (2, []) := by simpa [oneLoop] using hb
    rcases cases with rfl | rfl | rfl
    · exact .refl
    · exact one
    · exact one.tail (oneLoop_edge.mpr (by simp))
  exits b hb := by
    have cases : b = (0, [1]) ∨ b = (1, [1, 2]) ∨ b = (2, []) := by simpa [oneLoop] using hb
    rcases cases with rfl | rfl | rfl <;> exact oneLoop_reachesExit (by decide)

theorem oneLoop_keepsEntry_iff : KeepsEntry oneLoop ↔
    ∀ b, PostDominates oneLoop.Edge b 0 → ¬ Relation.TransGen oneLoop.Edge b b :=
  keepsEntry_iff oneLoop oneLoop_connected ⟨oneLoopTree, oneLoopTree_correct oneLoop.bare_hasCfg⟩

def loopAnalyses : Analyses where
  pdt _ := oneLoopTree
  aliasSet _ := []

/-- Slicing for the loop's terminator marks nothing else and removes the function. -/
theorem oneLoop_entry_lost : oneLoop.Connected ∧ loopAnalyses.Correct oneLoop.bare ∧
    oneLoop.bare.Verified ∧
    (∃ marked, ((runOnModule loopAnalyses oneLoop.bare).bind fun s =>
        BackSlice.markVerticesOfBackSlice Order.head s [.inst 1]) = some marked ∧
      .inst 1 ∈ marked ∧ .entry 0 ∉ marked) ∧
    BackSlice.runOnModule Order.head loopAnalyses oneLoop.bare [1] = some [] := by
  refine ⟨oneLoop_connected, ?_, oneLoop.bare_verified,
    ⟨[.inst 1], by decide +kernel, by decide, by decide⟩, by decide +kernel⟩
  intro F hF
  rw [List.mem_singleton.mp hF]
  exact oneLoopTree_correct oneLoop.bare_hasCfg

def loopedInvoke : Module where
  functions := [
    { id := 0
      blocks := [
        ⟨0, 0, [
          { id := 0, opcode := .other, operands := [.other 0] },
          { id := 1, opcode := .branch, succs := [1] }]⟩,
        ⟨1, 0, [
          { id := 2, opcode := .other, operands := [.inst 0, .inst 3] },
          { id := 3, opcode := .branch, operands := [.inst 2], succs := [1, 2] }]⟩,
        ⟨2, 0, [
          { id := 4, opcode := .call, operands := [.inst 2, .func 1] },
          { id := 5, opcode := .ret, operands := [.inst 4] }]⟩] },
    { id := 1
      args := [0]
      blocks := [⟨3, 1, [{ id := 6, opcode := .ret, operands := [.arg 0] }]⟩] }]
  func_nodup := by decide
  block_nodup := by decide
  inst_nodup := by decide
  arg_nodup := by decide
  parent_eq := by decide

def loopedAnalyses : Analyses where
  pdt f := if f = 0 then oneLoopTree else singleBlockTree 3
  aliasSet _ := []

theorem loopedInvoke_correct : loopedAnalyses.Correct loopedInvoke := by
  intro F hF
  have cases : F = loopedInvoke.functions[0] ∨ F = loopedInvoke.functions[1] := by
    simpa [loopedInvoke] using hF
  rcases cases with rfl | rfl
  · exact oneLoopTree_correct rfl
  · exact singleBlock_correct (B := ⟨3, 1, [{ id := 6, opcode := .ret, operands := [.arg 0] }]⟩)
      rfl (by decide)

theorem loopedInvoke_completes : ∃ s, runOnModule loopedAnalyses loopedInvoke = some s :=
  Option.isSome_iff_exists.mp (by decide +kernel)

end ProgramSlicer
