import ProgramSlicer.SliceSimulation
import ProgramSlicer.EntryKept
import ProgramSlicer.ForwardSlice

/-!
What slicing preserves. The backward slice of a program that halts computes the same
values at the criterion, and what is outside a forward slice does not depend on what
the criterion computes.
-/
namespace ProgramSlicer
open CallStrings ClosureMarking ControlDependence SDG

/-- Pointers through which one address may be accessed are in one alias set. -/
def Analyses.AliasesFound {V : Type} (A : Analyses) (M : Module) (J : Interpretation V) : Prop :=
  ∀ p q a, M.Accesses p → M.Accesses q → J.mayAccess p a = true → J.mayAccess q a = true →
    q ∈ A.aliasSet p

/-- No function has a block on a cycle that all its runs pass. -/
def Module.AllGrounded (M : Module) : Prop :=
  ∀ F ∈ M.functions, ∀ B ∈ F.blocks, Grounded F.Edge B.id

/-- Whoever calls a function in which, itself or through calls, such an instruction is. -/
def CallsKept (M : Module) (P kept : Instruction → Prop) : Prop :=
  ∀ I ∈ M.insts, I.opcode = .call → ∀ g, I.getCalledFunction = some g →
    Contains M.functions P g → kept I

/-- The decisions that lead to a block are kept where a `phi` of the block is. -/
def PhisDecided {V : Type} (M : Module) (J : Interpretation V) (kept : Instruction → Prop) : Prop :=
  ∀ F ∈ M.functions, ∀ B ∈ F.blocks, ∀ C ∈ F.blocks, C.id ∈ B.successors →
    ∀ I ∈ C.insts, kept I → J.ReadsOrigin I.id → ∀ T, B.getTerminator = some T → kept T

section Contains
variable {fs : List Function} {P Q : Instruction → Prop} {f : FuncId}

theorem contains_or (inside : Contains fs (fun I => P I ∨ Q I) f) :
    Contains fs P f ∨ Contains fs Q f := by
  induction inside with
  | here hF hI holds =>
    rcases holds with first | second
    · exact .inl (.here hF hI first)
    · exact .inr (.here hF hI second)
  | called hF hI isCall callee _ ih =>
    rcases ih with first | second
    · exact .inl (.called hF hI isCall callee first)
    · exact .inr (.called hF hI isCall callee second)

theorem contains_body (inside : Contains fs P f) :
    ∃ F ∈ fs, F.id = f ∧ ∃ I, I ∈ F.insts := by
  cases inside with
  | here hF hI => exact ⟨_, hF, rfl, _, hI⟩
  | called hF hI => exact ⟨_, hF, rfl, _, hI⟩

theorem defined_of_inst {F : Function} {I : Instruction} (hI : I ∈ F.insts) :
    F.isDeclaration = false := by
  obtain ⟨B, hB, _⟩ := mem_insts.mp hI
  exact defined_of_block hB

end Contains

section Memory
variable {V : Type} {A : Analyses} {M : Module} {s : SDG} {J : Interpretation V}

theorem memory_edge (operands : M.MemoryOperands) (run : runOnModule A M = some s)
    (aliases : A.AliasesFound M J) {S L : Instruction} (hS : S ∈ M.insts)
    (isStore : S.opcode = .store) {p : Value} (pointer : S.storePointer = some p)
    (hL : L ∈ M.insts) (isLoad : L.opcode = .load) {q : Value} (loaded : L.loadPointer = some q)
    {a : V} (writes : J.mayAccess p a = true) (reads : J.mayAccess q a = true) :
    Dependence A M s.cdg (.inst S.id) (.inst L.id) := by
  have inSet := aliases p q a ⟨S, hS, .inr ⟨isStore, pointer⟩⟩ ⟨L, hL, .inl ⟨isLoad, loaded⟩⟩
    writes reads
  obtain ⟨s1, s2, s3, s4, _, _, _, four, _⟩ := runOnModule_cases run
  have instructions : StoresToInstructions A M :=
    (generateDefNodeMap_total_iff operands).mp ⟨s4, four⟩
  obtain ⟨d, rfl⟩ := instructions S hS isStore p pointer q inSet
  exact .memory hS ⟨isStore, p, pointer, inSet, rfl⟩ hL isLoad (List.mem_of_getElem? loaded)

end Memory

section Backward
variable {A : Analyses} {M : Module} {s : SDG} (correct : A.Correct M) (verified : M.Verified)
  (run : runOnModule A M = some s)
include correct verified run

theorem control_edge {F : Function} (hF : F ∈ M.functions) {B : BasicBlock} (hB : B ∈ F.blocks)
    {b : BlockId} (dep : DependsOn F.Edge B.id b) : ∃ S ∈ F.blocks, S.id = b ∧
      ∃ T, S.getTerminator = some T ∧
        ∀ I ∈ B.insts, Dependence A M s.cdg (.inst T.id) (.inst I.id) := by
  obtain ⟨cdg, exits⟩ := runOnModule_cdg correct verified run
  have edge : CDG.ControlEdge F (some b) (some B.id) := .dep dep
  obtain ⟨S, hS, same⟩ :=
    (CDG.controlEdge_inside (verified.successor_local F hF) (exits F hF) edge).2 b rfl
  have hSM : S ∈ M.blocks := mem_blocks.mpr ⟨F, hF, hS⟩
  obtain ⟨T, term, _⟩ := terminator_last verified hSM
  refine ⟨S, hS, same.symm, T, term, fun I hI => ?_⟩
  exact .control hSM (mem_blocks.mpr ⟨F, hF, hB⟩) ((cdg _ _).mpr ⟨F, hF, same ▸ edge⟩) term hI

theorem descend_entry {F : Function} (hF : F ∈ M.functions) {B : BasicBlock} (hB : B ∈ F.blocks)
    (ground : Grounded F.Edge B.id) {I : Instruction} (hI : I ∈ B.insts) :
    Descend (Labelled s) (.entry F.id) (.inst I.id) := by
  obtain ⟨cdg, _⟩ := runOnModule_cdg correct verified run
  obtain ⟨r, free, chain⟩ := ground
  have down : ∀ x y, Relation.ReflTransGen (fun x y => DependsOn F.Edge y x) r x → x = y →
      ∀ B ∈ F.blocks, B.id = y → ∀ I ∈ B.insts,
        Descend (Labelled s) (.entry F.id) (.inst I.id) := by
    intro x y path
    induction path generalizing y with
    | refl =>
      rintro rfl B hB same I hI
      have edge : s.cdg.Connected none (some B.id) :=
        (cdg _ _).mpr ⟨F, hF, .entry hB (same ▸ free)⟩
      have dep : Dependence A M s.cdg (.entry B.parent) (.inst I.id) :=
        .entryControl (mem_blocks.mpr ⟨F, hF, hB⟩) edge hI
      rw [M.parent_eq F hF B hB] at dep
      exact .single ⟨_, by simp [letter], labelled_of_dependence run dep⟩
    | @tail z x _ dep ih =>
      rintro rfl B hB same I hI
      obtain ⟨S, hS, here, T, term, edges⟩ := control_edge correct verified run hF hB (same ▸ dep)
      have above := ih z rfl S hS here T (terminator_mem term).1
      exact .tail above ⟨_, by simp [letter], labelled_of_dependence run (edges I hI)⟩
  exact down B.id B.id chain rfl B hB rfl I hI

variable (grounded : M.AllGrounded)
include grounded

theorem descend_contained {P : Instruction → Prop} {f : FuncId}
    (inside : Contains M.functions P f) :
    ∃ I, P I ∧ Descend (Labelled s) (.entry f) (.inst I.id) := by
  induction inside with
  | @here F I hF hI holds =>
    obtain ⟨B, hB, hIB⟩ := mem_insts.mp hI
    exact ⟨I, holds, descend_entry correct verified run hF hB (grounded F hF B hB) hIB⟩
  | @called F I g hF hI isCall callee inner ih =>
    obtain ⟨K, holds, below⟩ := ih
    obtain ⟨B, hB, hIB⟩ := mem_insts.mp hI
    have above := descend_entry correct verified run hF hB (grounded F hF B hB) hIB
    obtain ⟨G, hG, rfl, _, hJ⟩ := contains_body inner
    have call : CallTo M I G := ⟨isCall, callee, hG, defined_of_inst hJ⟩
    have edge := labelled_of_dependence run
      (.call (mem_module_insts.mpr ⟨F, hF, hI⟩) call : Dependence A M s.cdg _ _)
    exact ⟨K, holds, above.trans (.head ⟨_, by simp [letter], edge⟩ below)⟩

/-- A function that holds a criterion has its entry in the slice, and so have all calls of it. -/
theorem marked_of_contains {criterion : List InstId} {f : FuncId}
    (inside : Contains M.functions (fun I => I.id ∈ criterion) f) :
    BackMarked s criterion (.entry f) ∧ ∀ I ∈ M.insts, I.opcode = .call →
      I.getCalledFunction = some f → BackMarked s criterion (.inst I.id) := by
  obtain ⟨K, listed, below⟩ := descend_contained correct verified run grounded inside
  refine ⟨⟨K.id, listed, _, .refl, below⟩, fun I hI isCall callee => ?_⟩
  obtain ⟨G, hG, rfl, _, hJ⟩ := contains_body inside
  have call : CallTo M I G := ⟨isCall, callee, hG, defined_of_inst hJ⟩
  have edge := labelled_of_dependence run (.call hI call : Dependence A M s.cdg _ _)
  exact ⟨K.id, listed, _, .refl, .head ⟨_, by simp [letter], edge⟩ below⟩

theorem entry_marked {criterion : List InstId} {F : Function} (hF : F ∈ M.functions)
    {I : Instruction} (hI : I ∈ F.insts) (marked : BackMarked s criterion (.inst I.id)) :
    BackMarked s criterion (.entry F.id) := by
  obtain ⟨B, hB, hIB⟩ := mem_insts.mp hI
  obtain ⟨r, free, chain⟩ := grounded F hF B hB
  exact entry_of_chain correct verified run hF free chain B hB rfl I hIB marked

end Backward

section Slice
variable {V : Type} {A : Analyses} {M : Module} {s : SDG} {J : Interpretation V}
  {criterion : List InstId} {marked : List NodePtr} {fs : List Function}

theorem find_kept (slice : BackSlice.sliceModule s marked M = some fs) {F : Function}
    (hF : F ∈ M.functions) (kept : BackSlice.functionKept s marked F = true) :
    fs.find? (·.id = F.id) = some (sliceFunction marked F) := by
  have there : sliceFunction marked F ∈ fs :=
    (backSlice_functions slice _).mpr ⟨F, hF, kept, rfl⟩
  cases found : fs.find? (·.id = F.id) with
  | none => simpa [sliceFunction] using List.find?_eq_none.mp found _ there
  | some K =>
    have same : K.id = F.id := by simpa using List.find?_some found
    obtain ⟨G, hG, _, rfl⟩ := (backSlice_functions slice K).mp (List.mem_of_find?_eq_some found)
    rw [function_eq hG hF same]

variable (correct : A.Correct M) (verified : M.Verified) (operands : M.MemoryOperands)
  (grounded : M.AllGrounded) (run : runOnModule A M = some s)
  (mem : ∀ n, n ∈ marked ↔ BackMarked s criterion n)
  (slice : BackSlice.sliceModule s marked M = some fs)
include correct verified grounded run mem slice

theorem remains_iff_marked {I : Instruction} (hI : I ∈ M.insts) :
    Remains fs I ↔ .inst I.id ∈ marked := by
  rw [remains_iff slice]
  refine ⟨And.left, fun isMarked => ⟨isMarked, ?_⟩⟩
  obtain ⟨F, hF, hIF⟩ := mem_module_insts.mp hI
  refine ⟨F, hF, kept_of_entry ((mem _).mpr ?_), hIF⟩
  exact entry_marked correct verified run grounded hF hIF ((mem _).mp isMarked)

omit correct verified grounded in
theorem backSlice_provided : Provided marked M fs := by
  intro I hI kept isCall G hG callee
  refine find_kept slice hG ?_
  cases defined : G.isDeclaration with
  | true => exact declaration_kept run hG defined marked
  | false =>
    have refers := backMarked_refersClosed run hI ((mem _).mp kept)
    exact kept_of_entry ((mem _).mpr (refers.callee G ⟨isCall, callee, hG, defined⟩).1)

include operands

/-- The backward slice holds what its instructions depend on. -/
theorem backSlice_sliceClosed (aliases : A.AliasesFound M J)
    (stores : CallsKept M (fun S => S.opcode = .store ∧ Remains fs S) (Remains fs))
    (phis : PhisDecided M J (Remains fs)) :
    SliceClosed marked J (fun i => decide (i ∈ criterion)) M := by
  have refers : ∀ I ∈ M.insts, .inst I.id ∈ marked → RefersClosed M s (BackMarked s criterion) I :=
    fun I hI kept => backMarked_refersClosed run hI ((mem _).mp kept)
  have remains : ∀ {I}, I ∈ M.insts → (Remains fs I ↔ .inst I.id ∈ marked) :=
    fun hI => remains_iff_marked correct verified grounded run mem slice hI
  refine ⟨?_, ?_, ?_, ?_, ?_, ?_, ?_⟩
  · intro I hI listed
    exact (mem _).mpr ⟨I.id, by simpa using listed, _, .refl, .refl⟩
  · intro I hI kept j used
    exact (mem _).mpr ((refers I hI kept).operand j used)
  · rintro F hF n b ⟨B, hB, rfl, I, hI, kept⟩ dep
    obtain ⟨S, hS, same, T, term, edges⟩ := control_edge correct verified run hF hB dep
    exact ⟨S, hS, same, T, term, (mem _).mpr
      (backMarked_pred run (edges I hI) (by simp [letter]) ((mem _).mp kept))⟩
  · rintro S hS isStore p a pointer writes ⟨L, hL, isLoad, kept, q, loaded, reads⟩
    have edge := memory_edge operands run aliases hS isStore pointer hL isLoad loaded writes reads
    exact (mem _).mpr (backMarked_pred run edge (by simp [letter]) ((mem _).mp kept))
  · intro I hI kept isCall G hG callee R hR isRet
    have call : CallTo M I G := ⟨isCall, callee, hG, defined_of_inst hR⟩
    exact (mem _).mpr (((refers I hI kept).callee G call).2 R hR isRet)
  · intro I hI skipped isCall g callee inside
    rcases contains_or inside with watched | store
    · have listed := contains_mono (Q := fun I => I.id ∈ criterion)
        (fun _ _ _ _ seen => by simpa using seen) watched
      have calls := (marked_of_contains correct verified run grounded listed).2 I hI isCall callee
      exact skipped ((mem _).mpr calls)
    · refine skipped ((remains hI).mp (stores I hI isCall g callee (contains_mono ?_ store)))
      rintro F hF K hK ⟨isStore, kept⟩
      exact ⟨isStore, (remains (mem_module_insts.mpr ⟨F, hF, hK⟩)).mpr kept⟩
  · rintro F hF b c ⟨B, hB, rfl, succ⟩ ⟨C, hC, rfl, I, hI, kept, reads⟩
    have hBM : B ∈ M.blocks := mem_blocks.mpr ⟨F, hF, hB⟩
    obtain ⟨T, term, _⟩ := terminator_last verified hBM
    have hIM := insts_of_block (mem_blocks.mpr ⟨F, hF, hC⟩) hI
    have decided := phis F hF B hB C hC succ I hI ((remains hIM).mpr kept) reads T term
    exact ⟨B, hB, rfl, T, term,
      (remains (insts_of_block hBM (terminator_mem term).1)).mp decided⟩

end Slice

/-- Where a call comes through in the module, it does so in its
backward slice, and the instructions of the criterion have had the same operands and
results in the same order. A function that the slicer removes has executed none of them. -/
theorem backSlice_preserves_criterion {V : Type} [DecidableEq V] {A : Analyses} {M : Module}
    {J : Interpretation V} {ord : Order NodePtr} {criterion : List InstId} {fs : List Function}
    (correct : A.Correct M) (verified : M.Verified) (operands : M.MemoryOperands)
    (returns : M.ReturnsLeave) (grounded : M.AllGrounded) (aliases : A.AliasesFound M J)
    (pure : J.ExternalsPure) (sliced : BackSlice.runOnModule ord A M criterion = some fs)
    (stores : CallsKept M (fun S => S.opcode = .store ∧ Remains fs S) (Remains fs))
    (phis : PhisDecided M J (Remains fs))
    {repair : BlockId → Option BlockId} (repaired : M.Repaired repair) {F : Function}
    (hF : F ∈ M.functions) {n : Nat} {path : List InstId} {vs : List V} {m : Memory V}
    {trace : List (Event V)} {r : Result V}
    (ran : callIn J (fun i => decide (i ∈ criterion)) (fun _ => none) M.functions n path F.id vs m =
      some (trace, r)) :
    ((∃ G ∈ fs, G.id = F.id) → ∃ k r',
      callIn J (fun i => decide (i ∈ criterion)) repair fs k path F.id vs m = some (trace, r')) ∧
    ((¬ ∃ G ∈ fs, G.id = F.id) → trace = []) := by
  obtain ⟨s, run, sliced⟩ := FoldRules.bind_some sliced
  obtain ⟨marked, mark, slice⟩ := FoldRules.bind_some sliced
  obtain ⟨marked', mark', mem⟩ := backMarked_of_run run ord criterion
  obtain rfl := Option.some.inj (mark.symm.trans mark')
  constructor
  · rintro ⟨G, hG, same⟩
    obtain ⟨F', hF', kept, rfl⟩ := (backSlice_functions slice G).mp hG
    obtain rfl := function_eq hF' hF same
    have closed := backSlice_sliceClosed correct verified operands grounded run mem slice aliases
      stores phis
    have provided := backSlice_provided run mem slice
    have exits := (runOnModule_cdg correct verified run).2
    obtain ⟨k, r', ran', _⟩ := callIn_follows closed pure verified returns exits repaired provided n
      hF (find_kept slice hF kept) (fun _ _ => rfl) ran
    exact ⟨k, r', ran'⟩
  · intro removed
    have quiet : ¬ Contains M.functions
        (Shows J (fun i => decide (i ∈ criterion)) fun _ => False) F.id := by
      intro inside
      have listed := contains_mono (Q := fun I => I.id ∈ criterion) (fun _ _ I _ shows => by
        rcases shows with seen | ⟨_, _, _, _, _, never⟩
        · simpa using seen
        · exact never.elim) inside
      have entry := (marked_of_contains correct verified run grounded listed).1
      exact removed ⟨_, (backSlice_functions slice _).mpr
        ⟨F, hF, kept_of_entry ((mem _).mpr entry), rfl⟩, rfl⟩
    exact (callIn_quiet pure n quiet ran).1

def readBack : Module where
  functions := [
    { id := 0
      blocks := [⟨0, 0, [
        { id := 0, opcode := .other },
        { id := 1, opcode := .call, operands := [.func 1] },
        { id := 2, opcode := .store, operands := [.inst 1, .inst 0] },
        { id := 3, opcode := .other, operands := [.inst 1] },
        { id := 4, opcode := .other, operands := [.inst 3] },
        { id := 5, opcode := .load, operands := [.inst 0] },
        { id := 6, opcode := .ret, operands := [.inst 5] }]⟩] },
    { id := 1
      blocks := [⟨1, 1, [{ id := 7, opcode := .ret, operands := [.other 3] }]⟩] }]
  func_nodup := by decide
  block_nodup := by decide
  inst_nodup := by decide
  arg_nodup := by decide
  parent_eq := by decide

def adding (extra : Nat) : Interpretation Nat where
  undef := 0
  constant
    | .other k => k
    | _ => 0
  compute i _ _ vs := some (if i = 0 then 7 else vs.foldl Nat.add extra)
  branch _ _ := none
  external _ _ _ := none
  mayAccess p a := p = .inst 0 && a = 7

theorem readBack_operands : readBack.MemoryOperands := by
  constructor <;> simp [Module.insts, Function.insts, readBack]

theorem readBack_noEdge {F : Function} (hF : F ∈ readBack.functions) (b c : BlockId) :
    ¬ F.Edge b c := by
  rintro ⟨B, hB, _, succ⟩
  have stop : ∀ F ∈ readBack.functions, ∀ B ∈ F.blocks, B.successors = [] := by decide
  rw [stop F hF B hB] at succ
  cases succ

theorem readBack_grounded : readBack.AllGrounded := by
  intro F hF B hB
  refine ⟨B.id, fun x ⟨c, edge, _⟩ => readBack_noEdge hF x c edge, .refl⟩

theorem readBack_aliases (extra : Nat) :
    (oneAddress (.inst 0)).AliasesFound readBack (adding extra) := by
  intro p q a _ _ hp hq
  obtain ⟨rfl, _⟩ : p = .inst 0 ∧ a = 7 := by simpa [adding] using hp
  obtain ⟨rfl, _⟩ : q = .inst 0 ∧ a = 7 := by simpa [adding] using hq
  simp [oneAddress]

theorem adding_pure (extra : Nat) : (adding extra).ExternalsPure :=
  ⟨fun _ _ => none, fun _ _ _ => rfl⟩

theorem adding_noPhi (extra : Nat) (i : InstId) : ¬ (adding extra).ReadsOrigin i :=
  fun ⟨_, _, _, _, differ⟩ => differ rfl

theorem readBack_preserves : ∃ fs,
    BackSlice.runOnModule Order.head (oneAddress (.inst 0)) readBack [5] = some fs ∧
      ((∃ G ∈ fs, G.id = 0) → ∃ k r', callIn (adding 1) (fun i => decide (i ∈ [5]))
        (fun _ => none) fs k [] 0 [] (fun _ => 0) = some ([⟨5, [7], 3⟩], r')) ∧
      ((¬ ∃ G ∈ fs, G.id = 0) → [(⟨5, [7], 3⟩ : Event Nat)] = []) := by
  have sliced : (BackSlice.runOnModule Order.head (oneAddress (.inst 0)) readBack
      [5]).isSome = true := by decide +kernel
  obtain ⟨fs, sliced⟩ := Option.isSome_iff_exists.mp sliced
  have remaining : ((BackSlice.runOnModule Order.head (oneAddress (.inst 0)) readBack [5]).map
      fun fs => decide (∃ G ∈ fs, ∃ I ∈ G.insts,
        I = { id := 1, opcode := .call, operands := [.func 1] })) =
      some true := by decide +kernel
  rw [sliced] at remaining
  refine ⟨fs, sliced, ?_⟩
  refine backSlice_preserves_criterion (F := readBack.functions[0]) (n := 3)
    (singleBlocks_correct rfl (by decide)) (by decide) readBack_operands (by decide)
    readBack_grounded (readBack_aliases 1) (adding_pure 1) sliced ?_ ?_ ?_
    (by decide) (r := ⟨3, _⟩) rfl
  · intro I hI isCall g _ _
    have only : ∀ I ∈ readBack.insts, I.opcode = .call →
        I = { id := 1, opcode := .call, operands := [.func 1] } := by decide
    rw [only I hI isCall]
    obtain ⟨G, hG, I, hI, same⟩ := of_decide_eq_true (Option.some.inj remaining)
    exact ⟨G, hG, same ▸ hI⟩
  · exact fun _ _ _ _ _ _ _ _ _ _ reads => absurd reads (adding_noPhi 1 _)
  · refine fun F hF => ⟨fun _ => 0, fun _ _ _ => rfl, fun B hB some => ?_⟩
    have stop : ∀ F ∈ readBack.functions, ∀ B ∈ F.blocks, B.successors = [] := by decide
    exact absurd (stop F hF B hB) some

section Forward
variable {V : Type} {A : Analyses} {M : Module} {s : SDG} {J : Interpretation V}
  {criterion : List InstId} {forward : List NodePtr}

def unaffected (M : Module) (forward : List NodePtr) : List NodePtr :=
  (M.insts.map fun I => .inst I.id).filter fun n => n ∉ forward

theorem mem_unaffected {I : Instruction} (hI : I ∈ M.insts) :
    .inst I.id ∈ unaffected M forward ↔ .inst I.id ∉ forward := by
  have listed : NodePtr.inst I.id ∈ M.insts.map fun I => NodePtr.inst I.id :=
    List.mem_map_of_mem hI
  simp [unaffected, listed]

variable (run : runOnModule A M = some s)
  (mem : ∀ n, n ∈ forward ↔ ∃ c ∈ criterion.map NodePtr.inst, ∃ m,
    Descend (Labelled s) c m ∧ Climb (Labelled s) m n)
include run mem

theorem forward_succ {a b : NodePtr} (dep : Dependence A M s.cdg a b)
    (notCall : ∀ i, letter a b ≠ .call i) (marked : a ∈ forward) : b ∈ forward := by
  obtain ⟨c, hc, m, down, up⟩ := (mem _).mp marked
  exact (mem _).mpr ⟨c, hc, m, down, up.tail ⟨_, notCall, labelled_of_dependence run dep⟩⟩

theorem forward_return {I R : Instruction} {G : Function} (hI : I ∈ M.insts) (call : CallTo M I G)
    (hR : R ∈ G.insts) (isRet : R.opcode = .ret) (marked : .inst R.id ∈ forward) :
    .inst I.id ∈ forward := by
  have output := forward_succ run mem (.ret call.inModule hR isRet) (by simp [letter]) marked
  have value := forward_succ run mem (.paramOut hI call) (by simp [letter]) output
  exact forward_succ run mem (.callReturn hI call.isCall) (by simp [letter]) value

variable (correct : A.Correct M) (verified : M.Verified) (operands : M.MemoryOperands)
include correct verified operands

theorem unaffected_sliceClosed {fs : List Function}
    (remains : ∀ {I}, I ∈ M.insts → (Remains fs I ↔ .inst I.id ∈ forward))
    (aliases : A.AliasesFound M J) {observe : InstId → Bool}
    (outside : ∀ I ∈ M.insts, observe I.id = true → ¬ Remains fs I)
    (calls : CallsKept M (fun K => observe K.id = true ∨ K.opcode = .store ∧ ¬ Remains fs K)
      (fun K => ¬ Remains fs K))
    (phis : PhisDecided M J fun I => ¬ Remains fs I) :
    SliceClosed (unaffected M forward) J observe M := by
  have off : ∀ {I}, I ∈ M.insts → (.inst I.id ∈ unaffected M forward ↔ ¬ Remains fs I) :=
    fun hI => (mem_unaffected hI).trans (not_congr (remains hI)).symm
  have stays : ∀ {I K}, I ∈ M.insts → K ∈ M.insts → .inst K.id ∈ unaffected M forward →
      (.inst I.id ∈ forward → .inst K.id ∈ forward) → .inst I.id ∈ unaffected M forward :=
    fun hI hK kept path => (mem_unaffected hI).mpr fun marked =>
      (mem_unaffected hK).mp kept (path marked)
  refine ⟨?_, ?_, ?_, ?_, ?_, ?_, ?_⟩
  · intro I hI seen
    exact (off hI).mpr (outside I hI seen)
  · intro I hI kept j used
    obtain ⟨F, hF, hIF⟩ := mem_module_insts.mp hI
    obtain ⟨K, hK, rfl⟩ := verified.operand_local F hF I hIF _ used
    exact stays (mem_module_insts.mpr ⟨F, hF, hK⟩) hI kept
      (forward_succ run mem (.operand hI used) (by simp [letter]))
  · rintro F hF n b ⟨B, hB, rfl, I, hI, kept⟩ dep
    have hIM := insts_of_block (mem_blocks.mpr ⟨F, hF, hB⟩) hI
    obtain ⟨S, hS, same, T, term, edges⟩ := control_edge correct verified run hF hB dep
    have hT := insts_of_block (mem_blocks.mpr ⟨F, hF, hS⟩) (terminator_mem term).1
    exact ⟨S, hS, same, T, term,
      stays hT hIM kept (forward_succ run mem (edges I hI) (by simp [letter]))⟩
  · rintro S hS isStore p a pointer writes ⟨L, hL, isLoad, kept, q, loaded, reads⟩
    have edge := memory_edge operands run aliases hS isStore pointer hL isLoad loaded writes reads
    exact stays hS hL kept (forward_succ run mem edge (by simp [letter]))
  · intro I hI kept isCall G hG callee R hR isRet
    exact stays (mem_module_insts.mpr ⟨G, hG, hR⟩) hI kept
      (forward_return run mem hI ⟨isCall, callee, hG, defined_of_inst hR⟩ hR isRet)
  · intro I hI affected isCall g callee inside
    refine affected ((off hI).mpr (calls I hI isCall g callee (contains_mono ?_ inside)))
    rintro F hF K hK (seen | ⟨isStore, kept⟩)
    · exact .inl seen
    · exact .inr ⟨isStore, (off (mem_module_insts.mpr ⟨F, hF, hK⟩)).mp kept⟩
  · rintro F hF b c ⟨B, hB, rfl, succ⟩ ⟨C, hC, rfl, I, hI, kept, reads⟩
    have hBM : B ∈ M.blocks := mem_blocks.mpr ⟨F, hF, hB⟩
    obtain ⟨T, term, _⟩ := terminator_last verified hBM
    have hIM := insts_of_block (mem_blocks.mpr ⟨F, hF, hC⟩) hI
    refine ⟨B, hB, rfl, T, term, (off (insts_of_block hBM (terminator_mem term).1)).mpr ?_⟩
    exact phis F hF B hB C hC succ I hI ((off hIM).mp kept) reads T term

end Forward

/-- Instructions outside the forward slice of a criterion do not notice what the criterion
computes: two runs that both come through observe the same there, and a function whose
returns are outside gives the same value. -/
theorem forwardSlice_noninterference {V : Type} [DecidableEq V] {A : Analyses} {M : Module}
    {J J' : Interpretation V} {ord : Order NodePtr} {criterion : List InstId} {fs : List Function}
    (correct : A.Correct M) (verified : M.Verified) (operands : M.MemoryOperands)
    (returns : M.ReturnsLeave) (aliases : A.AliasesFound M J) (pure : J.ExternalsPure)
    (sliced : ForwardSlice.runOnModule ord A M criterion = some fs)
    (changed : J.SameOff J' (· ∈ criterion)) {observe : InstId → Bool}
    (outside : ∀ I ∈ M.insts, observe I.id = true → ¬ Remains fs I)
    (calls : CallsKept M (fun K => observe K.id = true ∨ K.opcode = .store ∧ ¬ Remains fs K)
      (fun K => ¬ Remains fs K))
    (phis : PhisDecided M J fun I => ¬ Remains fs I)
    {F : Function} (hF : F ∈ M.functions) {n n' : Nat} {path : List InstId} {vs : List V}
    {m : Memory V} {trace trace' : List (Event V)} {r r' : Result V}
    (ran : callIn J observe (fun _ => none) M.functions n path F.id vs m = some (trace, r))
    (ran' : callIn J' observe (fun _ => none) M.functions n' path F.id vs m = some (trace', r')) :
    trace' = trace ∧
      ((∀ R ∈ F.insts, R.opcode = .ret → ¬ Remains fs R) → r'.value = r.value) := by
  obtain ⟨s, run, sliced⟩ := FoldRules.bind_some sliced
  obtain ⟨forward, mark, slice⟩ := FoldRules.bind_some sliced
  obtain ⟨forward', mark', mem⟩ :=
    markVerticesOfForwardSlice_spec (runOnModule_built run) ord (criterion.map .inst)
  obtain rfl := Option.some.inj (mark.symm.trans mark')
  have remains : ∀ {I}, I ∈ M.insts → (Remains fs I ↔ .inst I.id ∈ forward) := fun hI =>
    (remains_forward_iff slice _).trans (and_iff_right hI)
  -- the criterion is in its slice, so what is left out computes the same in both
  have apart : ∀ I ∈ M.insts, .inst I.id ∈ unaffected M forward → I.id ∉ criterion := by
    intro I hI kept listed
    exact (mem_unaffected hI).mp kept
      ((mem _).mpr ⟨.inst I.id, List.mem_map_of_mem listed, _, .refl, .refl⟩)
  have aliases' : A.AliasesFound M J' := by
    intro p q a hp hq
    rw [changed.mayAccess]
    exact aliases p q a hp hq
  have phis' : PhisDecided M J' fun I => ¬ Remains fs I := by
    intro F hF B hB C hC succ I hI off reads
    have hIM := insts_of_block (mem_blocks.mpr ⟨F, hF, hC⟩) hI
    have old := apart I hIM ((mem_unaffected hIM).mpr fun marked => off ((remains hIM).mpr marked))
    refine phis F hF B hB C hC succ I hI off ?_
    unfold Interpretation.ReadsOrigin at reads ⊢
    rwa [changed.compute I.id old] at reads
  have closed := unaffected_sliceClosed run mem correct verified operands remains aliases outside
    calls phis
  have closed' := unaffected_sliceClosed run mem correct verified operands remains aliases' outside
    calls phis'
  have exits := (runOnModule_cdg correct verified run).2
  obtain ⟨sameTrace, value⟩ :=
    changes_unseen closed closed' pure verified returns exits changed apart hF ran ran'
  refine ⟨sameTrace, fun off => value fun R hR isRet => ?_⟩
  have hRM : R ∈ M.insts := mem_module_insts.mpr ⟨F, hF, hR⟩
  exact (mem_unaffected hRM).mpr fun marked => off R hR isRet ((remains hRM).mpr marked)

def adding.changed : Interpretation Nat :=
  { adding 1 with compute := fun i path o vs =>
      if i = 3 then some 9 else (adding 1).compute i path o vs }

theorem changed_sameOff : (adding 1).SameOff adding.changed (· ∈ [3]) where
  undef := rfl
  constant := rfl
  external := rfl
  mayAccess := rfl
  compute i other := by
    have off : i ≠ 3 := by simpa using other
    funext path o vs
    simp [adding.changed, off]
  branch _ _ := rfl

theorem readBack_noninterference : ∃ fs trace r trace' r',
    ForwardSlice.runOnModule Order.head (oneAddress (.inst 0)) readBack [3] = some fs ∧
      callIn (adding 1) (fun i => i == 5) (fun _ => none) readBack.functions 3 [] 0 []
        (fun _ => 0) = some (trace, r) ∧
      callIn adding.changed (fun i => i == 5) (fun _ => none) readBack.functions 3 [] 0 []
        (fun _ => 0) = some (trace', r') ∧
      trace' = trace ∧
      ((∀ R ∈ readBack.functions[0].insts, R.opcode = .ret → ¬ Remains fs R) →
        r'.value = r.value) := by
  have sliced : ((ForwardSlice.runOnModule Order.head (oneAddress (.inst 0)) readBack [3]).map
      fun fs => fs.flatMap Function.insts) = some [
        { id := 3, opcode := .other, operands := [.inst 1] },
        { id := 4, opcode := .other, operands := [.inst 3] }] := by decide +kernel
  obtain ⟨fs, sliced, insts⟩ := Option.map_eq_some_iff.mp sliced
  have remains : ∀ I, Remains fs I ↔ I ∈ [
        { id := 3, opcode := .other, operands := [.inst 1] },
        { id := 4, opcode := .other, operands := [.inst 3] }] := by
    intro I
    rw [← insts]
    simp [Remains]
  have main : readBack.functions[0] ∈ readBack.functions := by decide
  obtain ⟨r, before⟩ : ∃ r, callIn (adding 1) (fun i => i == 5) (fun _ => none)
      readBack.functions 3 [] 0 [] (fun _ => 0) = some ([⟨5, [7], 3⟩], r) := ⟨⟨3, _⟩, rfl⟩
  obtain ⟨r', after⟩ : ∃ r, callIn adding.changed (fun i => i == 5) (fun _ => none)
      readBack.functions 3 [] 0 [] (fun _ => 0) = some ([⟨5, [7], 3⟩], r) := ⟨⟨3, _⟩, rfl⟩
  refine ⟨fs, _, r, _, r', sliced, before, after, ?_⟩
  refine forwardSlice_noninterference (singleBlocks_correct rfl (by decide)) (by decide)
    readBack_operands (by decide) (readBack_aliases 1) (adding_pure 1) sliced changed_sameOff
    ?_ ?_ ?_ main before after
  · simp only [remains]
    decide
  · intro I hI isCall g _ _
    rw [remains]
    clear * - hI isCall
    revert I
    decide
  · exact fun _ _ _ _ _ _ _ _ _ _ reads => absurd reads (adding_noPhi 1 _)

end ProgramSlicer
