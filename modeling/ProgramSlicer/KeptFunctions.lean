import ProgramSlicer.BackwardSlice

/-!
Functions in a backward slice. A dependence that neither enters nor leaves a
callee stays inside one function, unless it goes through memory; and an
instruction keeps its function's entry through a chain of control dependences,
unless a loop that every run passes cuts the chain.
-/
namespace ProgramSlicer
open CallStrings ClosureMarking SDG ControlDependence

/-- The node belongs to the function, either to its body or to its interface. -/
def InFunction (F : Function) : NodePtr → Prop
  | .inst i => ∃ I ∈ F.insts, I.id = i
  | .entry f => f = F.id
  | .calleeInput a => a ∈ F.args
  | .calleeOutput f => f = F.id
  | .callerInput ci _ => ∃ I ∈ F.insts, I.id = ci
  | .callerOutput ci _ => ∃ I ∈ F.insts, I.id = ci

/-- A load outside F that reads what a store in F may have written. -/
def MemoryLeaves (A : Analyses) (M : Module) (F : Function) (S L : Instruction) : Prop :=
  S ∈ F.insts ∧ L ∈ M.insts ∧ L ∉ F.insts ∧ L.opcode = .load ∧
    ∃ d, StoreDef A S d (.inst S.id) ∧ .inst d ∈ L.operands

section Leaving
variable {A : Analyses} {M : Module} {s : SDG}

theorem inst_in {F : Function} (hF : F ∈ M.functions) {I : Instruction} (hI : I ∈ M.insts)
    (inF : InFunction F (.inst I.id)) : I ∈ F.insts := by
  obtain ⟨J, hJ, same⟩ := inF
  exact inst_eq (mem_module_insts.mpr ⟨F, hF, hJ⟩) hI same ▸ hJ

theorem same_function {F G : Function} (hF : F ∈ M.functions) (hG : G ∈ M.functions)
    {I : Instruction} (hI : I ∈ G.insts) (inF : InFunction F (.inst I.id)) : F = G :=
  inst_function_eq hF hG (inst_in hF (mem_module_insts.mpr ⟨G, hG, hI⟩) inF) hI

theorem block_of_inst {F : Function} (hF : F ∈ M.functions) {D : BasicBlock} (hD : D ∈ M.blocks)
    {I : Instruction} (hI : I ∈ D.insts) (inF : I ∈ F.insts) : D ∈ F.blocks := by
  obtain ⟨B, hB, hIB⟩ := mem_insts.mp inF
  exact inst_block_eq (mem_blocks.mpr ⟨F, hF, hB⟩) hD hIB hI ▸ hB

theorem control_local (correct : A.Correct M) (verified : M.Verified)
    (run : runOnModule A M = some s) {F : Function} (hF : F ∈ M.functions) {S D : BasicBlock}
    (hS : S ∈ F.blocks) (hD : D ∈ M.blocks) (edge : s.cdg.Connected (some S.id) (some D.id)) :
    D ∈ F.blocks := by
  obtain ⟨cdg, exits⟩ := runOnModule_cdg correct verified run
  obtain ⟨G, hG, edge⟩ := (cdg _ _).mp edge
  obtain ⟨⟨D', hD', sameD⟩, source⟩ :=
    CDG.controlEdge_inside (verified.successor_local G hG) (exits G hG) edge
  obtain ⟨S', hS', sameS⟩ := source S.id rfl
  have eqS := block_eq (mem_blocks.mpr ⟨F, hF, hS⟩) (mem_blocks.mpr ⟨G, hG, hS'⟩) sameS
  have eqD := block_eq hD (mem_blocks.mpr ⟨G, hG, hD'⟩) (Option.some.inj sameD)
  have eq : F = G := block_function_eq hF hG hS (eqS ▸ hS')
  exact eq ▸ eqD ▸ hD'

theorem neutral_stays (correct : A.Correct M) (verified : M.Verified)
    (run : runOnModule A M = some s) {F : Function} (hF : F ∈ M.functions) {a b : NodePtr}
    (dep : Dependence A M s.cdg a b) (neutral : letter a b = .neutral) (inF : InFunction F a) :
    InFunction F b ∨ ∃ S L, a = .inst S.id ∧ b = .inst L.id ∧ MemoryLeaves A M F S L := by
  cases dep with
  | @control S D T I hS hD edge term hI =>
    have hT := inst_in hF (insts_of_block hS (terminator_mem term).1) inF
    have hSF := block_of_inst hF hS (terminator_mem term).1 hT
    have hDF := control_local correct verified run hF hSF hD edge
    exact Or.inl ⟨I, mem_insts.mpr ⟨D, hDF, hI⟩, rfl⟩
  | @entryControl D I hD edge hI =>
    obtain ⟨G, hG, hDG⟩ := mem_blocks.mp hD
    have eq : G = F := function_eq hG hF ((M.parent_eq G hG D hDG).symm.trans inF)
    exact Or.inl ⟨I, mem_insts.mpr ⟨D, eq ▸ hDG, hI⟩, rfl⟩
  | @formal G f hG defined hf =>
    have eq : G = F := function_eq hG hF inF
    exact Or.inl (eq ▸ hf)
  | @result G hG defined => exact Or.inl inF
  | @actual I G v hI call hv => exact Or.inl inF
  | @returned I G hI call => exact Or.inl inF
  | @operand I j hI used =>
    obtain ⟨G, hG, hIG⟩ := mem_module_insts.mp hI
    obtain ⟨J, hJ, rfl⟩ := verified.operand_local G hG I hIG _ used
    exact Or.inl ⟨I, same_function hF hG hJ inF ▸ hIG, rfl⟩
  | @argument I f hI used =>
    obtain ⟨G, hG, hIG⟩ := mem_module_insts.mp hI
    have hf : f ∈ G.args := verified.operand_local G hG I hIG _ used
    exact Or.inl ⟨I, arg_function_eq hF hG inF hf ▸ hIG, rfl⟩
  | @ret G I hG hI isRet => exact Or.inl (same_function hF hG hI inF ▸ rfl)
  | @callReturn I hI isCall => exact Or.inl inF
  | @memory S L d hS store hL isLoad used =>
    by_cases hLF : L ∈ F.insts
    · exact Or.inl ⟨L, hLF, rfl⟩
    · exact Or.inr ⟨S, L, rfl, rfl, inst_in hF hS inF, hL, hLF, isLoad, d, store, used⟩
  | call hI call => cases neutral
  | paramIn hI call matched => cases neutral
  | paramOut hI call => cases neutral

/-- A climbing path from a node of F is flat, or passes a return of F to some
    call of F, or leaves through memory before any return. -/
theorem climb_leaves (correct : A.Correct M) (verified : M.Verified)
    (run : runOnModule A M = some s) {F : Function} (hF : F ∈ M.functions) {a m : NodePtr}
    (inF : InFunction F a) (path : Climb (Labelled s) a m) :
    Flat (Labelled s) a m ∨
    (∃ I ∈ M.insts, CallTo M I F ∧ Climb (Labelled s) (.callerOutput I.id (.inst I.id)) m) ∨
    ∃ S L, MemoryLeaves A M F S L ∧ Flat (Labelled s) a (.inst L.id) ∧
      Climb (Labelled s) (.inst S.id) m ∧ Climb (Labelled s) (.inst L.id) m := by
  have built := runOnModule_built run
  induction path using Relation.ReflTransGen.head_induction_on with
  | refl => exact Or.inl .refl
  | @head a b edge rest ih =>
    obtain ⟨l, notCall, edge⟩ := edge
    obtain ⟨conn, same⟩ := (labelled_iff built).mp edge
    have dep := (runOnModule_conn run a b).mp conn
    cases l with
    | neutral =>
      rcases neutral_stays correct verified run hF dep same.symm inF with stays |
        ⟨S, L, rfl, rfl, leaves⟩
      · rcases ih stays with flat | back | ⟨S, L, leaves, flat, fromS, fromL⟩
        · exact Or.inl (.head ⟨_, rfl, edge⟩ flat)
        · exact Or.inr (Or.inl back)
        · exact Or.inr (Or.inr ⟨S, L, leaves, .head ⟨_, rfl, edge⟩ flat, fromS, fromL⟩)
      · exact Or.inr (Or.inr
          ⟨S, L, leaves, .single ⟨_, rfl, edge⟩, .head ⟨_, notCall, edge⟩ rest, rest⟩)
    | call i => exact absurd rfl (notCall i)
    | ret i =>
      cases edge with
      | paramOut stored =>
        cases dep with
        | @paramOut I G hI call =>
          have eq : G = F := function_eq call.inModule hF inF
          exact Or.inr (Or.inl ⟨I, hI, eq ▸ call, rest⟩)
        | _ => cases same

end Leaving

/-- A kept function is called in the slice, unless what is kept of it is read
    through memory by a load of another function that the first pass does not reach:
    that edge is no return, and the second pass does not ascend to call sites. -/
theorem kept_function_called_or_read {A : Analyses} {M : Module} {s : SDG}
    (correct : A.Correct M) (verified : M.Verified) (run : runOnModule A M = some s)
    (ord : Order NodePtr) (criterion : List InstId) :
    ∃ marked, BackSlice.markVerticesOfBackSlice ord s (criterion.map .inst) = some marked ∧
      ∀ F ∈ M.functions, .entry F.id ∈ marked → (∃ I ∈ M.insts, CallTo M I F) →
        (∃ I ∈ M.insts, CallTo M I F ∧ .inst I.id ∈ marked) ∨
        ∃ S L, MemoryLeaves A M F S L ∧ .inst S.id ∈ marked ∧ .inst L.id ∈ marked ∧
          ∀ c ∈ criterion, ¬ Descend (Labelled s) (.inst L.id) (.inst c) := by
  obtain ⟨marked, mark, mem⟩ := backMarked_of_run run ord criterion
  refine ⟨marked, mark, fun F hF entry ⟨J, hJ, call⟩ => ?_⟩
  simp only [mem] at entry ⊢
  obtain ⟨c, hc, m, up, down⟩ := entry
  have enter := labelled_of_dependence run (.call hJ call)
  have kept : ∀ {n c}, c ∈ criterion → Flat (Labelled s) (.entry F.id) n →
      Descend (Labelled s) n (.inst c) → BackMarked s criterion (.inst J.id) := by
    intro n c hc flat down
    have path := Relation.ReflTransGen.head ⟨_, by simp [letter], enter⟩
      ((flat_descends flat).trans down)
    exact ⟨c, hc, _, .refl, path⟩
  rcases climb_leaves correct verified run hF (a := .entry F.id) rfl up with flat |
    ⟨I, hI, callI, rest⟩ | ⟨S, L, leaves, flat, fromS, fromL⟩
  · exact Or.inl ⟨J, hJ, call, kept hc flat down⟩
  · exact Or.inl ⟨I, hI, callI, call_of_output_marked run hI ⟨c, hc, m, rest, down⟩⟩
  · by_cases first : ∃ c ∈ criterion, Descend (Labelled s) (.inst L.id) (.inst c)
    · obtain ⟨c, hc, reaches⟩ := first
      exact Or.inl ⟨J, hJ, call, kept hc flat reaches⟩
    · refine Or.inr ⟨S, L, leaves, ⟨c, hc, m, fromS, down⟩, ⟨c, hc, m, fromL, down⟩, ?_⟩
      exact fun c hc reaches => first ⟨c, hc, reaches⟩

theorem passedOn_called : ∃ s, runOnModule blockPerFunction passedOn = some s ∧
    ∃ marked, BackSlice.markVerticesOfBackSlice Order.head s [.inst 4] = some marked ∧
      ∀ F ∈ passedOn.functions, .entry F.id ∈ marked →
        (∃ I ∈ passedOn.insts, CallTo passedOn I F) →
        (∃ I ∈ passedOn.insts, CallTo passedOn I F ∧ .inst I.id ∈ marked) ∨
        ∃ S L, MemoryLeaves blockPerFunction passedOn F S L ∧ .inst S.id ∈ marked ∧
          .inst L.id ∈ marked ∧ ∀ c ∈ [4], ¬ Descend (Labelled s) (.inst L.id) (.inst c) := by
  obtain ⟨s, run⟩ := passedOn_completes
  exact ⟨s, run, kept_function_called_or_read (singleBlocks_correct rfl (by decide)) (by decide)
    run Order.head [4]⟩

/-- main calls function 1, which stores, and function 2, which loads from the
    same place and returns what it read; main uses that value. -/
def throughMemory : Module where
  functions := [
    { id := 0
      blocks := [⟨0, 0, [
        { id := 0, opcode := .call, operands := [.func 1] },
        { id := 1, opcode := .call, operands := [.func 2] },
        { id := 2, opcode := .other, operands := [.inst 1] },
        { id := 3, opcode := .ret }]⟩] },
    { id := 1
      blocks := [⟨1, 1, [
        { id := 4, opcode := .other, operands := [.other 0] },
        { id := 5, opcode := .store, operands := [.other 1, .inst 4] },
        { id := 6, opcode := .ret }]⟩] },
    { id := 2
      blocks := [⟨2, 2, [
        { id := 7, opcode := .other, operands := [.other 0] },
        { id := 8, opcode := .load, operands := [.inst 7] },
        { id := 9, opcode := .ret, operands := [.inst 8] }]⟩] }]
  func_nodup := by decide
  block_nodup := by decide
  inst_nodup := by decide
  arg_nodup := by decide
  parent_eq := by decide

/-- The two computed pointers are in one alias set. -/
def onePlace : Analyses where
  pdt := singleBlockTree
  aliasSet
    | .inst 4 => [.inst 4, .inst 7]
    | .inst 7 => [.inst 4, .inst 7]
    | _ => []

theorem throughMemory_uncalled : throughMemory.Verified ∧ onePlace.Correct throughMemory ∧
    ∃ marked, ((runOnModule onePlace throughMemory).bind fun s =>
        BackSlice.markVerticesOfBackSlice Order.head s [.inst 2]) = some marked ∧
      ∃ F ∈ throughMemory.functions, F.isDeclaration = false ∧ .entry F.id ∈ marked ∧
        (∃ I ∈ throughMemory.insts, I.opcode = .call ∧ I.getCalledFunction = some F.id) ∧
        ∀ I ∈ throughMemory.insts, I.opcode = .call → I.getCalledFunction = some F.id →
          .inst I.id ∉ marked := by
  refine ⟨by decide, singleBlocks_correct rfl (by decide),
    [.entry 1, .inst 4, .inst 7, .inst 5, .inst 8, .entry 2, .inst 9, .calleeOutput 2,
      .callerOutput 1 (.inst 1), .entry 0, .inst 1, .inst 2], by decide +kernel, ?_⟩
  decide

end ProgramSlicer
