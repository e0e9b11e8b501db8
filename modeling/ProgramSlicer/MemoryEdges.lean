import ProgramSlicer.BackwardSlice

/-!
Step 4 of `SDG::runOnModule`: the edges through memory. The definition map is keyed by
the pointers of alias sets as far as they are instructions; a set that also holds an
argument, a global variable or a constant expression fails the assertion on the way.
-/
namespace ProgramSlicer
open FoldRules

def Instruction.loadPointer (I : Instruction) : Option Value := I.operands[0]?

def Module.Accesses (M : Module) (v : Value) : Prop :=
  ∃ I ∈ M.insts, (I.opcode = .load ∧ I.loadPointer = some v) ∨
    (I.opcode = .store ∧ I.storePointer = some v)

/-- The alias sets partition the address operands, and the tracker returns for a
pointer the set that it is in. -/
structure Analyses.AliasPartition (A : Analyses) (M : Module) : Prop where
  inside : ∀ p, M.Accesses p → ∀ v ∈ A.aliasSet p, M.Accesses v
  own : ∀ p, M.Accesses p → p ∈ A.aliasSet p
  shared : ∀ p, M.Accesses p → ∀ v ∈ A.aliasSet p, ∀ w, w ∈ A.aliasSet v ↔ w ∈ A.aliasSet p

/-- The operands of memory instructions in LLVM IR. The result of a store is void, so
no instruction uses it. -/
structure Module.MemoryOperands (M : Module) : Prop where
  load : ∀ I ∈ M.insts, I.opcode = .load → ∃ p, I.operands = [p]
  store : ∀ I ∈ M.insts, I.opcode = .store → ∃ v p, I.operands = [v, p]
  void : ∀ S ∈ M.insts, S.opcode = .store → ∀ I ∈ M.insts, .inst S.id ∉ I.operands

namespace SDG

def HasFlowEdge (s : SDG) (a b : NodePtr) : Prop := ((a, b), some ⟨EdgeAttr.flow⟩) ∈ s.graph.edges

/-- Step 4 comes through and leaves a flow edge from a store to a load exactly where
their pointers are in one alias set. -/
def MemoryEdgesExact (A : Analyses) (M : Module) (s : SDG) : Prop :=
  ∃ s', generateDefNodeMap A M s = some s' ∧
    ∀ S ∈ M.insts, S.opcode = .store → ∀ p, S.storePointer = some p →
      ∀ L ∈ M.insts, L.opcode = .load → ∀ q, L.loadPointer = some q →
        (HasFlowEdge (generatePointerEdges M s') (.inst S.id) (.inst L.id) ↔ q ∈ A.aliasSet p)

variable {A : Analyses} {M : Module} {s : SDG}

theorem generatePointerEdges_edges {x : (NodePtr × NodePtr) × Option SDGEdge}
    (stored : x ∈ (generatePointerEdges M s).graph.edges) :
    x ∈ s.graph.edges ∨ x.2 = some ⟨EdgeAttr.flow⟩ := by
  have kept : ∀ x ∈ (generatePointerEdges M s).graph.edges,
      x ∈ s.graph.edges ∨ x.2 = some ⟨EdgeAttr.flow⟩ := by
    refine foldl_keeps (P := fun t : SDG => ∀ x ∈ t.graph.edges,
      x ∈ s.graph.edges ∨ x.2 = some ⟨EdgeAttr.flow⟩) (fun it _ t one => ?_) fun x old => .inl old
    refine foldl_keeps (P := fun t : SDG => ∀ x ∈ t.graph.edges,
      x ∈ s.graph.edges ∨ x.2 = some ⟨EdgeAttr.flow⟩) (fun src _ u two => ?_) one
    refine foldl_keeps (P := fun t : SDG => ∀ x ∈ t.graph.edges,
      x ∈ s.graph.edges ∨ x.2 = some ⟨EdgeAttr.flow⟩) (fun L _ w three => ?_) two
    exact DirectedGraph.insert_preserves (.inr rfl) three
  exact kept x stored

structure AfterStepThree (M : Module) (s : SDG) : Prop where
  no_defs : s.defNodeMap = []
  conn : ∀ a b, s.Conn a b → (ControlPart M s.cdg a b ∨ ∃ F ∈ M.functions, CalleeEdge F a b) ∨
    (∃ I ∈ M.insts, ∃ F, CallTo M I F ∧ CallEdge I F a b) ∨
    ∃ F ∈ M.functions, ∃ I ∈ F.insts, FlowEdge F.id I a b

theorem afterStepThree {s1 s2 : SDG} (one : M.functions.foldlM (stepOne A M) {} = some s1)
    (two : M.insts.foldlM (stepTwo M) s1 = some s2)
    (three : M.functions.foldlM generateIntraDDG s2 = some s) : AfterStepThree M s := by
  have first := stepsOne_afterStepOne (afterStepOne_start M) one
  have calls := extends_foldlM (fun I _ s s' step => stepTwo_extends step) two
  have flows := extends_foldlM (fun F _ s s' inner =>
    extends_foldlM (fun I _ s s' step => intraInst_extends step) inner) three
  refine ⟨flows.defs.trans (calls.defs.trans first.no_defs), ?_⟩
  intro a b edge
  rw [flows.conn, calls.conn, first.conn, ← calls.cdg, ← flows.cdg] at edge
  simpa [or_assoc] using edge

theorem apart_before (operands : M.MemoryOperands) (after : AfterStepThree M s)
    {S L : Instruction} (hS : S ∈ M.insts) (isStore : S.opcode = .store) :
    ¬ s.Conn (.inst S.id) (.inst L.id) := by
  intro edge
  rcases after.conn _ _ edge with (control | callee) | call | flow
  · rcases controlPart_iff.mp control with ⟨B, hB, _, _, _, T, term, _, _, source, _⟩ |
      ⟨_, _, _, _, _, source, _⟩
    · obtain ⟨hT, isTerm⟩ := terminator_mem term
      have same : S = T := inst_eq hS (insts_of_block hB hT) (NodePtr.inst.inj source)
      rw [← same] at isTerm
      simp [Instruction.isTerminator, isStore] at isTerm
    · cases source
  · obtain ⟨F, _, _, source, _⟩ := callee
    cases source
  · obtain ⟨I, _, F, _, ⟨_, target⟩ | (⟨_, v, _, target⟩ | ⟨v, a, _, source, _⟩) |
      ⟨target, _⟩⟩ := call
    all_goals simp at *
  · obtain ⟨F, hF, I, hI, ⟨v, hv, target, ⟨j, rfl, source⟩ | ⟨a, _, source⟩⟩ | ⟨_, _, target⟩ |
      ⟨_, source, _⟩⟩ := flow
    · have same : S.id = j := NodePtr.inst.inj source
      exact operands.void S hS isStore I (mem_module_insts.mpr ⟨F, hF, hI⟩) (same ▸ hv)
    all_goals simp at *

def StoresToInstructions (A : Analyses) (M : Module) : Prop :=
  ∀ S ∈ M.insts, S.opcode = .store → ∀ p, S.storePointer = some p →
    ∀ v ∈ A.aliasSet p, ∃ i, v = .inst i

theorem generateDefNodeMap_total_iff (operands : M.MemoryOperands) :
    (∃ s', generateDefNodeMap A M s = some s') ↔ StoresToInstructions A M := by
  unfold generateDefNodeMap StoresToInstructions
  refine foldlM_total_iff (P := fun _ => True) ?_ (fun _ _ _ _ _ _ => trivial) trivial
  intro S hS t _
  unfold recordStore
  by_cases isStore : S.opcode = .store
  · obtain ⟨v, p, shape⟩ := operands.store S hS isStore
    have pointer : S.storePointer = some p := by simp [Instruction.storePointer, shape]
    simp only [isStore, if_true, pointer, Option.bind_eq_bind, Option.bind_some, true_imp_iff,
      Option.some.injEq, forall_eq']
    refine foldlM_total_iff (P := fun _ => True) ?_ (fun _ _ _ _ _ _ => trivial) trivial
    intro w _ u _
    cases w <;> simp [recordPointer]
  · simp [isStore]

theorem memoryEdge_iff (operands : M.MemoryOperands) (after : AfterStepThree M s) {s' : SDG}
    (run : generateDefNodeMap A M s = some s') {S L : Instruction} (hS : S ∈ M.insts)
    (isStore : S.opcode = .store) {p : Value} (pointer : S.storePointer = some p)
    (hL : L ∈ M.insts) (isLoad : L.opcode = .load) {q : Value} (loaded : L.loadPointer = some q) :
    HasFlowEdge (generatePointerEdges M s') (.inst S.id) (.inst L.id) ↔
      q ∈ A.aliasSet p ∧ ∃ i, q = .inst i := by
  obtain ⟨graph, _⟩ := generateDefNodeMap_graph run
  have defs := generateDefNodeMap_defs run after.no_defs
  have before : ¬ s'.Conn (.inst S.id) (.inst L.id) := by
    unfold Conn
    rw [graph]
    exact apart_before operands after hS isStore
  have conn := (generatePointerEdges_extends M s').conn (.inst S.id) (.inst L.id)
  have shape : L.operands = [q] := by
    obtain ⟨q', shape⟩ := operands.load L hL isLoad
    rw [Instruction.loadPointer, shape] at loaded
    rw [shape, Option.some.inj loaded]
  constructor
  · intro edge
    rcases conn.mp ⟨_, edge⟩ with old | ⟨i, recorded, L', hL', same⟩
    · exact absurd old before
    · obtain ⟨S', hS', _, p', pointer', mem, sameS⟩ := (defs i _).mp recorded
      obtain ⟨inM, _, used⟩ := mem_loadUsers.mp hL'
      obtain rfl := inst_eq hS hS' (NodePtr.inst.inj sameS)
      obtain rfl := inst_eq hL inM (NodePtr.inst.inj same)
      obtain rfl := Option.some.inj (pointer.symm.trans pointer')
      rw [shape, List.mem_singleton] at used
      exact ⟨used ▸ mem, i, used.symm⟩
  · rintro ⟨mem, i, rfl⟩
    have recorded := (defs i (.inst S.id)).mpr ⟨S, hS, isStore, p, pointer, mem, rfl⟩
    have user : L ∈ loadUsers M i := mem_loadUsers.mpr ⟨hL, isLoad, by simp [shape]⟩
    obtain ⟨edge, stored⟩ := conn.mpr (.inr ⟨i, recorded, L, user, rfl⟩)
    rcases generatePointerEdges_edges stored with old | flow
    · exact absurd ⟨edge, old⟩ before
    · obtain rfl : edge = some ⟨EdgeAttr.flow⟩ := flow
      exact stored

/-- After steps 1 to 3, step 4 comes through and connects exactly the stores and loads
whose pointers share an alias set, if and only if the alias set of every store's pointer
holds instructions only. -/
theorem memoryEdgesExact_iff (operands : M.MemoryOperands) {s1 s2 : SDG}
    (one : M.functions.foldlM (stepOne A M) {} = some s1)
    (two : M.insts.foldlM (stepTwo M) s1 = some s2)
    (three : M.functions.foldlM generateIntraDDG s2 = some s) :
    MemoryEdgesExact A M s ↔ StoresToInstructions A M := by
  rw [← generateDefNodeMap_total_iff (s := s) operands]
  have after := afterStepThree one two three
  constructor
  · rintro ⟨s', run, _⟩
    exact ⟨s', run⟩
  · rintro ⟨s', run⟩
    refine ⟨s', run, ?_⟩
    intro S hS isStore p pointer L hL isLoad q loaded
    rw [memoryEdge_iff operands after run hS isStore pointer hL isLoad loaded]
    have instructions := (generateDefNodeMap_total_iff operands).mp ⟨s', run⟩
    constructor
    · exact And.left
    · intro mem
      exact ⟨mem, instructions S hS isStore p pointer q mem⟩

def storeThenLoadFrom (address : Value) : Module where
  functions := [
    { id := 0
      blocks := [⟨0, 0, [
        { id := 0, opcode := .other },
        { id := 1, opcode := .store, operands := [.other 0, address] },
        { id := 2, opcode := .load, operands := [address] },
        { id := 3, opcode := .ret }]⟩] }]
  func_nodup := by simp
  block_nodup := by simp
  inst_nodup := by simp [Function.insts]
  arg_nodup := by simp
  parent_eq := by simp

def oneAddress (address : Value) : Analyses where
  pdt := singleBlockTree
  aliasSet v := if v = address then [address] else []

theorem storeThenLoadFrom_operands {address : Value} (notVoid : address ≠ .inst 1) :
    (storeThenLoadFrom address).MemoryOperands := by
  constructor
  · simp [Module.insts, Function.insts, storeThenLoadFrom]
  · simp [Module.insts, Function.insts, storeThenLoadFrom]
  · simpa [Module.insts, Function.insts, storeThenLoadFrom] using notVoid.symm

theorem storeThenLoadFrom_partition (address : Value) :
    (oneAddress address).AliasPartition (storeThenLoadFrom address) := by
  have only : ∀ p, (storeThenLoadFrom address).Accesses p ↔ p = address := by
    intro p
    simp [Module.Accesses, Module.insts, Function.insts, storeThenLoadFrom,
      Instruction.loadPointer, Instruction.storePointer, eq_comm]
  constructor <;> simp [only, oneAddress]

/-- With the address of an alloca. -/
theorem localStore_exact : ∃ s1 s2 s3,
    (storeThenLoadFrom (.inst 0)).functions.foldlM
      (stepOne (oneAddress (.inst 0)) (storeThenLoadFrom (.inst 0))) {} = some s1 ∧
    (storeThenLoadFrom (.inst 0)).insts.foldlM (stepTwo (storeThenLoadFrom (.inst 0))) s1 =
      some s2 ∧
    (storeThenLoadFrom (.inst 0)).functions.foldlM generateIntraDDG s2 = some s3 ∧
    MemoryEdgesExact (oneAddress (.inst 0)) (storeThenLoadFrom (.inst 0)) s3 := by
  have completes : (runOnModule (oneAddress (.inst 0)) (storeThenLoadFrom (.inst 0))).isSome =
      true := by decide +kernel
  obtain ⟨s, run⟩ := Option.isSome_iff_exists.mp completes
  obtain ⟨s1, s2, s3, s4, one, two, three, four, _⟩ := runOnModule_cases run
  have operands : (storeThenLoadFrom (.inst 0)).MemoryOperands :=
    storeThenLoadFrom_operands (by decide)
  refine ⟨s1, s2, s3, one, two, three, (memoryEdgesExact_iff operands one two three).mpr ?_⟩
  exact (generateDefNodeMap_total_iff operands).mp ⟨s4, four⟩

/-- With the address of a global variable: step 4 fails its assertion. -/
theorem globalStore_fails : (storeThenLoadFrom (.other 1)).Verified ∧
    (storeThenLoadFrom (.other 1)).MemoryOperands ∧
    (oneAddress (.other 1)).Correct (storeThenLoadFrom (.other 1)) ∧
    (oneAddress (.other 1)).AliasPartition (storeThenLoadFrom (.other 1)) ∧
    ∃ s1 s2 s3, (storeThenLoadFrom (.other 1)).functions.foldlM
        (stepOne (oneAddress (.other 1)) (storeThenLoadFrom (.other 1))) {} = some s1 ∧
      (storeThenLoadFrom (.other 1)).insts.foldlM (stepTwo (storeThenLoadFrom (.other 1))) s1 =
        some s2 ∧
      (storeThenLoadFrom (.other 1)).functions.foldlM generateIntraDDG s2 = some s3 ∧
      generateDefNodeMap (oneAddress (.other 1)) (storeThenLoadFrom (.other 1)) s3 = none ∧
      ¬ MemoryEdgesExact (oneAddress (.other 1)) (storeThenLoadFrom (.other 1)) s3 := by
  have steps : (((storeThenLoadFrom (.other 1)).functions.foldlM
      (stepOne (oneAddress (.other 1)) (storeThenLoadFrom (.other 1))) {}).bind fun s1 =>
    ((storeThenLoadFrom (.other 1)).insts.foldlM
      (stepTwo (storeThenLoadFrom (.other 1))) s1).bind fun s2 =>
    ((storeThenLoadFrom (.other 1)).functions.foldlM generateIntraDDG s2).map fun s3 =>
      generateDefNodeMap (oneAddress (.other 1)) (storeThenLoadFrom (.other 1)) s3) =
    some none := by decide +kernel
  obtain ⟨s1, one, rest⟩ := bind_some steps
  obtain ⟨s2, two, rest⟩ := bind_some rest
  obtain ⟨s3, three, fails⟩ := Option.map_eq_some_iff.mp rest
  refine ⟨by decide, storeThenLoadFrom_operands (by decide),
    singleBlocks_correct rfl (by decide), storeThenLoadFrom_partition _, s1, s2, s3, one, two,
    three, fails, ?_⟩
  rintro ⟨s', run, _⟩
  rw [fails] at run
  cases run

end SDG
end ProgramSlicer
