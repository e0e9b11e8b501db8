import ProgramSlicer.Slicing

/-!
`sliceModule` of both slicers, and what the node maps hold when it reads them.
Removal is by membership in the marked set; an assertion that fails is `none`.
A block of which nothing is left stays as an empty block.
-/
namespace ProgramSlicer
open FoldRules

def sliceBlock (marked : List NodePtr) (B : BasicBlock) : BasicBlock :=
  { B with insts := B.insts.filter fun I => .inst I.id ∈ marked }

def sliceFunction (marked : List NodePtr) (F : Function) : Function :=
  { F with blocks := F.blocks.map (sliceBlock marked) }

def isInstruction (s : SDG) (I : Instruction) : Bool :=
  (s.instNodeMap.find I.id).map SDGNode.attr = some .instruction

namespace BackSlice

/-- `assert(funcEntryNode->getAttr() == entry)`, reached only for functions in the map. -/
def entryAsserted (s : SDG) (F : Function) : Bool :=
  match s.entryNodeMap.find F.id with
  | none => true
  | some node => node.attr = .entry

def functionKept (s : SDG) (marked : List NodePtr) (F : Function) : Bool :=
  (s.entryNodeMap.find F.id).isNone || .entry F.id ∈ marked

def sliceModule (s : SDG) (marked : List NodePtr) (M : Module) : Option (List Function) :=
  if M.functions.all (entryAsserted s) then
    let functions := M.functions.filter (functionKept s marked)
    if functions.all fun F => F.insts.all (isInstruction s) then
      some (functions.map (sliceFunction marked))
    else none
  else none

/-- The pass on the instructions that `slice.conf` names. -/
def runOnModule (ord : ClosureMarking.Order NodePtr) (A : Analyses) (M : Module)
    (criterion : List InstId) : Option (List Function) := do
  let s ← SDG.runOnModule A M
  let marked ← markVerticesOfBackSlice ord s (criterion.map .inst)
  sliceModule s marked M

end BackSlice

namespace ForwardSlice

/-- The removal of functions is commented out in this copy. -/
def sliceModule (s : SDG) (marked : List NodePtr) (M : Module) : Option (List Function) :=
  if M.functions.all fun F => F.insts.all (isInstruction s) then
    some (M.functions.map (sliceFunction marked))
  else none

def runOnModule (ord : ClosureMarking.Order NodePtr) (A : Analyses) (M : Module)
    (criterion : List InstId) : Option (List Function) := do
  let s ← SDG.runOnModule A M
  let marked ← markVerticesOfForwardSlice ord s (criterion.map .inst)
  sliceModule s marked M

end ForwardSlice

theorem mem_sliceBlock {marked : List NodePtr} {B : BasicBlock} {I : Instruction} :
    I ∈ (sliceBlock marked B).insts ↔ I ∈ B.insts ∧ .inst I.id ∈ marked := by
  simp [sliceBlock]

theorem mem_sliceFunction {marked : List NodePtr} {F : Function} {I : Instruction} :
    I ∈ (sliceFunction marked F).insts ↔ I ∈ F.insts ∧ .inst I.id ∈ marked := by
  simp only [mem_insts, sliceFunction, List.mem_map, ↓existsAndEq, and_true, mem_sliceBlock]
  grind

theorem backSlice_functions {s : SDG} {marked : List NodePtr} {M : Module} {fs : List Function}
    (run : BackSlice.sliceModule s marked M = some fs) (G : Function) :
    G ∈ fs ↔ ∃ F ∈ M.functions, BackSlice.functionKept s marked F = true ∧
      sliceFunction marked F = G := by
  unfold BackSlice.sliceModule at run
  split at run
  · simp only at run
    split at run
    · rw [← Option.some.inj run]
      simp [List.mem_map, List.mem_filter, and_assoc]
    · simp at run
  · simp at run

theorem forwardSlice_functions {s : SDG} {marked : List NodePtr} {M : Module}
    {fs : List Function} (run : ForwardSlice.sliceModule s marked M = some fs) :
    fs = M.functions.map (sliceFunction marked) := by
  unfold ForwardSlice.sliceModule at run
  split at run
  · exact (Option.some.inj run).symm
  · simp at run

namespace NodeMap
variable {K : Type} [DecidableEq K]

theorem mem_of_find {m : NodeMap K} {k : K} {node : SDGNode} (found : m.find k = some node) :
    (k, node) ∈ m := by
  unfold find at found
  obtain ⟨x, hx, same⟩ := Option.map_eq_some_iff.mp found
  have key : x.1 = k := by simpa using List.find?_some hx
  rw [← key, ← same]
  exact List.mem_of_find?_eq_some hx

theorem mem_insert {m : NodeMap K} {k : K} {node : SDGNode} {x : K × SDGNode}
    (mem : x ∈ m.insert k node) : x = (k, node) ∨ x ∈ m := by
  unfold insert at mem
  split at mem
  · exact Or.inr mem
  · simpa using mem

theorem index_of_found {m : NodeMap K} {k : K} (found : (m.find k).isSome) : m.index k = m := by
  unfold index insert
  rw [if_pos found]

theorem found_of_hasValue {m : NodeMap K} {k : K} (value : SDG.hasValue (m.index k) k = true) :
    (m.find k).isSome := by
  by_contra missing
  unfold SDG.hasValue index insert at value
  rw [if_neg missing] at value
  simp [find] at value

end NodeMap

namespace SDG

/-- Every instruction node is made for its instruction, every entry node for a
    function that the module defines. -/
structure MapsSound (M : Module) (s : SDG) : Prop where
  inst : ∀ x ∈ s.instNodeMap, x.2.attr = .instruction
  entry : ∀ x ∈ s.entryNodeMap, ∃ F ∈ M.functions, F.id = x.1 ∧ F.isDeclaration = false

structure SameMaps (s s' : SDG) : Prop where
  inst : s'.instNodeMap = s.instNodeMap
  entry : s'.entryNodeMap = s.entryNodeMap

theorem mapsSound_of_same {M : Module} {s s' : SDG} (sound : MapsSound M s)
    (same : SameMaps s s') : MapsSound M s' :=
  ⟨same.inst ▸ sound.inst, same.entry ▸ sound.entry⟩

theorem sameMaps_trans {s t u : SDG} (first : SameMaps s t) (second : SameMaps t u) :
    SameMaps s u :=
  ⟨second.inst.trans first.inst, second.entry.trans first.entry⟩

variable {A : Analyses} {M : Module}

theorem insertInst_sound {s : SDG} (sound : MapsSound M s) (i : InstId) :
    MapsSound M (s.insertInst i) := by
  refine ⟨fun x mem => ?_, sound.entry⟩
  rcases NodeMap.mem_insert mem with rfl | old
  · rfl
  · exact sound.inst x old

theorem controlBlock_sound {s : SDG} (sound : MapsSound M s) (src : NodePtr) (D : BasicBlock) :
    MapsSound M (controlBlock src D s) := by
  refine foldl_keeps (P := MapsSound M) ?_ sound
  intro I _ t h
  exact mapsSound_of_same (insertInst_sound h I.id) ⟨rfl, rfl⟩

theorem entry_sound {s : SDG} (sound : MapsSound M s) {F : Function} (hF : F ∈ M.functions)
    (defined : F.isDeclaration = false) (node : SDGNode) :
    MapsSound M { s with entryNodeMap := s.entryNodeMap.insert F.id node } := by
  refine ⟨sound.inst, fun x mem => ?_⟩
  rcases NodeMap.mem_insert mem with rfl | old
  · exact ⟨F, hF, rfl, defined⟩
  · exact sound.entry x old

theorem defined_of_block {F : Function} {B : BasicBlock} (hB : B ∈ F.blocks) :
    F.isDeclaration = false := by
  cases blocks : F.blocks with
  | nil => simp [blocks] at hB
  | cons C rest => simp [Function.isDeclaration, blocks]

theorem controlPred_sound {D : BasicBlock} (hD : D ∈ M.blocks) {s s' : SDG}
    {pred : Option BlockId} (run : controlPred M D s pred = some s') (sound : MapsSound M s) :
    MapsSound M s' := by
  cases pred with
  | none =>
    obtain ⟨F, hF, hDF⟩ := mem_blocks.mp hD
    rw [controlPred_entry run, M.parent_eq F hF D hDF]
    exact controlBlock_sound (entry_sound sound hF (defined_of_block hDF) _) _ D
  | some S =>
    obtain ⟨B, T, _, _, rfl⟩ := controlPred_block run
    exact controlBlock_sound (insertInst_sound sound T.id) _ D

theorem stepOne_sound {F : Function} (hF : F ∈ M.functions) {s s' : SDG}
    (run : stepOne A M s F = some s') (sound : MapsSound M s) : MapsSound M s' := by
  rcases stepOne_cases run with ⟨_, rfl⟩ | ⟨defined, cdg, t, _, nodes, rfl⟩
  · exact sound
  · have afterNodes : MapsSound M t := controlNodes_keep (P := MapsSound M)
      (fun D hD _ _ _ step before => controlPred_sound hD step before) nodes
      (mapsSound_of_same sound ⟨rfl, rfl⟩)
    have inputs : MapsSound M (F.args.foldl (calleeInput F.id)
        { t with entryNodeMap := t.entryNodeMap.index F.id }) := by
      refine foldl_keeps (P := MapsSound M) ?_
        (entry_sound afterNodes hF defined {})
      intro a _ u h
      exact mapsSound_of_same h ⟨rfl, rfl⟩
    exact mapsSound_of_same inputs ⟨rfl, rfl⟩

theorem callerInputs_maps {ci : InstId} {vs : List Value} {formals : List ArgId} {s s' : SDG}
    (run : callerInputs ci vs formals s = some s') : SameMaps s s' :=
  callerInputs_keep (P := SameMaps s) (fun _ _ _ _ same => sameMaps_trans same ⟨rfl, rfl⟩) run
    ⟨rfl, rfl⟩

theorem stepTwo_sound {I : Instruction} {s s' : SDG} (run : stepTwo M s I = some s')
    (sound : MapsSound M s) : MapsSound M s' := by
  rcases stepTwo_cases run with ⟨rfl, _⟩ | ⟨F, call, connected⟩
  · exact sound
  · obtain ⟨hasInst, _, t, inputs, rfl⟩ := connectCall_cases connected
    have known := NodeMap.index_of_found (NodeMap.found_of_hasValue hasInst)
    have entered : MapsSound M { s with
        instNodeMap := s.instNodeMap.index I.id
        entryNodeMap := s.entryNodeMap.index F.id } := by
      rw [known]
      exact entry_sound sound call.inModule call.defined {}
    have actuals := callerInputs_maps inputs
    exact mapsSound_of_same entered ⟨actuals.inst, actuals.entry⟩

theorem intraInst_maps {f : FuncId} {I : Instruction} {s s' : SDG}
    (run : intraInst f s I = some s') : (s.instNodeMap.find I.id).isSome ∧ SameMaps s s' := by
  obtain ⟨found, t, uses, rfl⟩ := intraInst_cases run
  have kept : SameMaps s t := by
    refine foldlM_keeps (P := SameMaps s) (fun v _ u u' one same => ?_) uses ⟨rfl, rfl⟩
    refine sameMaps_trans same ?_
    rcases defUse_cases one with ⟨j, _, _, rfl⟩ | ⟨a, _, _, rfl⟩ | ⟨_, _, rfl⟩
    · exact ⟨rfl, rfl⟩
    · exact ⟨rfl, rfl⟩
    · exact ⟨rfl, rfl⟩
  refine ⟨found, sameMaps_trans kept ?_⟩
  unfold callReturnFlow returnFlow
  split <;> split <;> exact ⟨rfl, rfl⟩

theorem generateDefNodeMap_maps {s s' : SDG} (run : generateDefNodeMap A M s = some s') :
    SameMaps s s' := by
  obtain ⟨m, rfl⟩ := generateDefNodeMap_defNodeMap run
  exact ⟨rfl, rfl⟩

theorem generatePointerEdges_maps {s : SDG}
    (found : ∀ I ∈ M.insts, (s.instNodeMap.find I.id).isSome) :
    SameMaps s (generatePointerEdges M s) := by
  refine generatePointerEdges_keep (P := SameMaps s) (fun L hL src t same => ?_) ⟨rfl, rfl⟩
  have known := found L hL
  rw [← same.inst] at known
  refine sameMaps_trans same ⟨?_, rfl⟩
  exact NodeMap.index_of_found known

theorem runOnModule_maps {s : SDG} (run : runOnModule A M = some s) :
    MapsSound M s ∧ ∀ I ∈ M.insts, (s.instNodeMap.find I.id).isSome := by
  obtain ⟨s1, s2, s3, s4, one, two, three, four, last⟩ := runOnModule_cases run
  have start : MapsSound M {} := ⟨by simp, by simp⟩
  have sound2 : MapsSound M s2 := foldlM_keeps (P := MapsSound M)
    (fun I _ _ _ step => stepTwo_sound step) two (foldlM_keeps (P := MapsSound M)
      (fun F hF _ _ step => stepOne_sound hF step) one start)
  have keep : ∀ F ∈ M.functions, ∀ t t', generateIntraDDG t F = some t' → SameMaps s2 t →
      SameMaps s2 t' := fun F _ t t' inner same => foldlM_keeps (P := SameMaps s2)
    (fun I _ u u' step kept => sameMaps_trans kept (intraInst_maps step).2) inner same
  have same3 : SameMaps s2 s3 := foldlM_keeps (P := SameMaps s2) keep three ⟨rfl, rfl⟩
  have found2 : ∀ I ∈ M.insts, (s2.instNodeMap.find I.id).isSome := by
    intro I hI
    obtain ⟨F, hF, hIF⟩ := mem_module_insts.mp hI
    obtain ⟨t, t', same, inner⟩ := foldlM_visits (P := SameMaps s2) keep three ⟨rfl, rfl⟩ hF
    obtain ⟨u, u', kept, step⟩ := foldlM_visits (P := SameMaps s2)
      (fun I _ u u' step kept => sameMaps_trans kept (intraInst_maps step).2) inner same hIF
    exact kept.inst ▸ (intraInst_maps step).1
  have same4 := sameMaps_trans same3 (generateDefNodeMap_maps four)
  have same := sameMaps_trans same4
    (generatePointerEdges_maps fun I hI => by rw [same4.inst]; exact found2 I hI)
  rw [last]
  exact ⟨mapsSound_of_same sound2 same, fun I hI => by rw [same.inst]; exact found2 I hI⟩

theorem isInstruction_of_run {s : SDG} (run : runOnModule A M = some s) {I : Instruction}
    (hI : I ∈ M.insts) : isInstruction s I = true := by
  obtain ⟨sound, found⟩ := runOnModule_maps run
  obtain ⟨node, hnode⟩ := Option.isSome_iff_exists.mp (found I hI)
  have attr := sound.inst _ (NodeMap.mem_of_find hnode)
  unfold isInstruction
  simpa [hnode] using attr

theorem declaration_kept {s : SDG} (run : runOnModule A M = some s) {F : Function}
    (hF : F ∈ M.functions) (declared : F.isDeclaration = true) (marked : List NodePtr) :
    BackSlice.functionKept s marked F = true := by
  unfold BackSlice.functionKept
  cases found : s.entryNodeMap.find F.id with
  | none => simp
  | some node =>
    obtain ⟨G, hG, same, defined⟩ := (runOnModule_maps run).1.entry _ (NodeMap.mem_of_find found)
    have eq : G = F := function_eq hG hF same
    rw [eq, declared] at defined
    cases defined

theorem kept_of_entry {s : SDG} {marked : List NodePtr} {F : Function}
    (entry : .entry F.id ∈ marked) : BackSlice.functionKept s marked F = true := by
  simp [BackSlice.functionKept, entry]

end SDG

open SDG

theorem forwardSlice_total {A : Analyses} {M : Module} {s : SDG}
    (run : runOnModule A M = some s) (marked : List NodePtr) :
    ForwardSlice.sliceModule s marked M = some (M.functions.map (sliceFunction marked)) := by
  unfold ForwardSlice.sliceModule
  rw [if_pos]
  simp only [List.all_eq_true]
  intro F hF I hI
  exact isInstruction_of_run run (mem_module_insts.mpr ⟨F, hF, hI⟩)

theorem backSlice_total {A : Analyses} {M : Module} {s : SDG} (run : runOnModule A M = some s)
    (entries : ∀ F ∈ M.functions, BackSlice.entryAsserted s F = true) (marked : List NodePtr) :
    ∃ fs, BackSlice.sliceModule s marked M = some fs := by
  refine ⟨(M.functions.filter (BackSlice.functionKept s marked)).map (sliceFunction marked), ?_⟩
  unfold BackSlice.sliceModule
  rw [if_pos (List.all_eq_true.mpr entries)]
  simp only
  rw [if_pos]
  simp only [List.all_eq_true]
  intro F hF I hI
  exact isInstruction_of_run run (mem_module_insts.mpr ⟨F, (List.mem_filter.mp hF).1, hI⟩)

def Remains (fs : List Function) (I : Instruction) : Prop := ∃ G ∈ fs, I ∈ G.insts

theorem remains_iff {s : SDG} {marked : List NodePtr} {M : Module} {fs : List Function}
    (run : BackSlice.sliceModule s marked M = some fs) (I : Instruction) :
    Remains fs I ↔ .inst I.id ∈ marked ∧ ∃ F ∈ M.functions,
      BackSlice.functionKept s marked F = true ∧ I ∈ F.insts := by
  unfold Remains
  constructor
  · intro ⟨G, hG, hI⟩
    obtain ⟨F, hF, kept, rfl⟩ := (backSlice_functions run G).mp hG
    obtain ⟨inF, isMarked⟩ := mem_sliceFunction.mp hI
    exact ⟨isMarked, F, hF, kept, inF⟩
  · intro ⟨isMarked, F, hF, kept, inF⟩
    exact ⟨sliceFunction marked F, (backSlice_functions run _).mpr ⟨F, hF, kept, rfl⟩,
      mem_sliceFunction.mpr ⟨inF, isMarked⟩⟩

theorem remains_forward_iff {s : SDG} {marked : List NodePtr} {M : Module} {fs : List Function}
    (run : ForwardSlice.sliceModule s marked M = some fs) (I : Instruction) :
    Remains fs I ↔ I ∈ M.insts ∧ .inst I.id ∈ marked := by
  rw [forwardSlice_functions run]
  unfold Remains
  simp only [List.mem_map, ↓existsAndEq, and_true, mem_sliceFunction, mem_module_insts]
  grind

end ProgramSlicer
