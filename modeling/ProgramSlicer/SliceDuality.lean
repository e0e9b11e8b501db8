import ProgramSlicer.ForwardSlice

/-!
Where slicing forward and slicing backward are dual. The forward slicer follows
the paths that make their calls before their returns, the backward slicer those
that make their returns before their calls. What decides is what a call
instruction and what the entry of a called function reach by paths that only
return or only call.
-/
namespace ProgramSlicer
open CallStrings ClosureMarking SDG

/-- LLVM's rules for return instructions: they leave the function and have no value. -/
def Module.ReturnsEnd (M : Module) : Prop :=
  M.ReturnsLeave ∧ ∀ R ∈ M.insts, R.opcode = .ret → ∀ I ∈ M.insts, .inst R.id ∉ I.operands

instance (M : Module) : Decidable M.ReturnsEnd :=
  inferInstanceAs (Decidable (M.ReturnsLeave ∧ ∀ R ∈ M.insts, R.opcode = .ret →
    ∀ I ∈ M.insts, .inst R.id ∉ I.operands))

/-- What a call of a returning function reaches through callees is reached from some
    call of that function without entering one. -/
def ReturnsStayAbove (M : Module) (s : SDG) : Prop :=
  ∀ G ∈ M.functions, ∀ R ∈ G.insts, R.opcode = .ret → ∀ I ∈ M.insts, CallTo M I G →
    ∀ W ∈ M.insts, W ≠ R → Descend (Labelled s) (.inst I.id) (.inst W.id) →
      ∃ I' ∈ M.insts, CallTo M I' G ∧ Climb (Labelled s) (.inst I'.id) (.inst W.id)

/-- What the entry of a function reaches, in the function or by returning to any of its
    calls, each of its calls reaches by only returning or by only calling. -/
def CallsShareReturns (M : Module) (s : SDG) : Prop :=
  ∀ F ∈ M.functions, ∀ I ∈ M.insts, CallTo M I F → ∀ W ∈ M.insts,
    Climb (Labelled s) (.entry F.id) (.inst W.id) →
      Climb (Labelled s) (.inst I.id) (.inst W.id) ∨ Descend (Labelled s) (.inst I.id) (.inst W.id)

section Duality
variable {A : Analyses} {M : Module} {s : SDG}

theorem dependence_of_labelled (run : runOnModule A M = some s) {a b : NodePtr} {l : Letter InstId}
    (edge : Labelled s a l b) : Dependence A M s.cdg a b ∧ l = letter a b := by
  obtain ⟨conn, same⟩ := (labelled_iff (runOnModule_built run)).mp edge
  exact ⟨(runOnModule_conn run a b).mp conn, same⟩

theorem dependence_on_return (correct : A.Correct M) (verified : M.Verified) (ends : M.ReturnsEnd)
    (run : runOnModule A M = some s) {G : Function} (hG : G ∈ M.functions) {R : Instruction}
    (hR : R ∈ G.insts) (isRet : R.opcode = .ret) {b : NodePtr}
    (dep : Dependence A M s.cdg (.inst R.id) b) : b = .calleeOutput G.id := by
  have inM : R ∈ M.insts := mem_module_insts.mpr ⟨G, hG, hR⟩
  have stops := ends.1 R inM isRet
  obtain ⟨B, hB, hRB⟩ := mem_insts.mp hR
  have hBM : B ∈ M.blocks := mem_blocks.mpr ⟨G, hG, hB⟩
  obtain ⟨T, term, split⟩ := terminator_last verified hBM
  have last : R = T := by
    rw [split] at hRB
    rcases List.mem_append.mp hRB with body | last
    · have noTerm := (verified.terminated B hBM).2 R body
      simp [Instruction.isTerminator, isRet] at noTerm
    · exact List.mem_singleton.mp last
  subst last
  rcases dependence_on_terminator hG hB term dep with ⟨D, hD, edge, _⟩ | ⟨I, hI, used, _⟩ | ⟨_, out⟩
  · obtain ⟨H, hH, edge⟩ := ((runOnModule_cdg correct verified run).1 _ _).mp edge
    cases edge with
    | dep depends =>
      obtain ⟨c, ⟨C, hC, same, next⟩, _⟩ := depends
      have eq : C = B := block_eq (mem_blocks.mpr ⟨H, hH, hC⟩) hBM same
      rw [eq, BasicBlock.successors, term] at next
      simp [stops] at next
  · exact absurd used (ends.2 R inM isRet I hI)
  · exact out

theorem dependence_on_output {cdg : CDG.Graph} {g : FuncId} {b : NodePtr}
    (dep : Dependence A M cdg (.calleeOutput g) b) :
    ∃ I ∈ M.insts, ∃ G, G.id = g ∧ CallTo M I G ∧ b = .callerOutput I.id (.inst I.id) := by
  cases dep with
  | @paramOut I G hI call => exact ⟨I, hI, G, rfl, call, rfl⟩

theorem dependence_of_output {cdg : CDG.Graph} {g : FuncId} {a : NodePtr}
    (dep : Dependence A M cdg a (.calleeOutput g)) :
    a = .entry g ∨
      ∃ G ∈ M.functions, G.id = g ∧ ∃ R ∈ G.insts, R.opcode = .ret ∧ a = .inst R.id := by
  cases dep with
  | result => exact Or.inl rfl
  | @ret G R hG hR isRet => exact Or.inr ⟨G, hG, rfl, R, hR, isRet, rfl⟩

theorem not_climb_to_entry (run : runOnModule A M = some s) {a : InstId} {f : FuncId} :
    ¬ Climb (Labelled s) (.inst a) (.entry f) := by
  intro path
  rcases Relation.ReflTransGen.cases_tail path with same | ⟨d, _, ⟨l, notCall, edge⟩⟩
  · cases same
  · obtain ⟨dep, letterEq⟩ := dependence_of_labelled run edge
    cases dep with
    | call hI call => exact notCall _ letterEq

theorem from_caller_output (run : runOnModule A M = some s) {allow : Letter InstId → Prop}
    {i : InstId} {v : Value} {w : InstId}
    (path : Along (Labelled s) allow (.callerOutput i v) (.inst w)) :
    Along (Labelled s) allow (.inst i) (.inst w) := by
  rcases Relation.ReflTransGen.cases_head path with same | ⟨b, ⟨l, _, edge⟩, rest⟩
  · cases same
  · obtain ⟨dep, _⟩ := dependence_of_labelled run edge
    cases dep with
    | callReturn => exact rest

theorem climb_from_output (run : runOnModule A M = some s) {g : FuncId} {w : InstId}
    (path : Climb (Labelled s) (.calleeOutput g) (.inst w)) :
    ∃ I ∈ M.insts, ∃ G, G.id = g ∧ CallTo M I G ∧ Climb (Labelled s) (.inst I.id) (.inst w) := by
  rcases Relation.ReflTransGen.cases_head path with same | ⟨b, ⟨l, _, edge⟩, rest⟩
  · cases same
  · obtain ⟨dep, _⟩ := dependence_of_labelled run edge
    obtain ⟨I, hI, G, key, call, rfl⟩ := dependence_on_output dep
    exact ⟨I, hI, G, key, call, from_caller_output run rest⟩

theorem return_climbs (run : runOnModule A M = some s) {G : Function} (hG : G ∈ M.functions)
    {R : Instruction} (hR : R ∈ G.insts) (isRet : R.opcode = .ret) {I : Instruction}
    (hI : I ∈ M.insts) (call : CallTo M I G) : Climb (Labelled s) (.inst R.id) (.inst I.id) := by
  have out := labelled_of_dependence run (.ret hG hR isRet)
  have back := labelled_of_dependence run (.paramOut hI call)
  have value := labelled_of_dependence run (.callReturn hI call.isCall)
  exact .head ⟨_, by simp [letter], out⟩
    (.head ⟨_, by simp [letter], back⟩ (.single ⟨_, by simp [letter], value⟩))

theorem callsFirst_from_return (correct : A.Correct M) (verified : M.Verified)
    (ends : M.ReturnsEnd) (run : runOnModule A M = some s) {G : Function} (hG : G ∈ M.functions)
    {R W : Instruction} (hR : R ∈ G.insts) (isRet : R.opcode = .ret) (hW : W ∈ M.insts)
    (other : W ≠ R) {m : NodePtr} (down : Descend (Labelled s) (.inst R.id) m)
    (up : Climb (Labelled s) m (.inst W.id)) :
    ∃ I ∈ M.insts, CallTo M I G ∧ Climb (Labelled s) (.inst I.id) (.inst W.id) := by
  have apart : NodePtr.inst R.id ≠ .inst W.id := fun same =>
    other (inst_eq hW (mem_module_insts.mpr ⟨G, hG, hR⟩) (NodePtr.inst.inj same).symm)
  have onward : Climb (Labelled s) (.calleeOutput G.id) (.inst W.id) := by
    rcases Relation.ReflTransGen.cases_head down with rfl | ⟨b, ⟨l, _, edge⟩, rest⟩
    · rcases Relation.ReflTransGen.cases_head up with same | ⟨b, ⟨l, _, edge⟩, rest⟩
      · exact absurd same apart
      · exact dependence_on_return correct verified ends run hG hR isRet
          (dependence_of_labelled run edge).1 ▸ rest
    · have out := dependence_on_return correct verified ends run hG hR isRet
        (dependence_of_labelled run edge).1
      subst out
      rcases Relation.ReflTransGen.cases_head rest with rfl | ⟨c, ⟨l', notRet, edge'⟩, _⟩
      · exact up
      · obtain ⟨dep, letterEq⟩ := dependence_of_labelled run edge'
        obtain ⟨I, _, _, _, _, rfl⟩ := dependence_on_output dep
        exact absurd letterEq (notRet _)
  obtain ⟨I, hI, H, key, call, path⟩ := climb_from_output run onward
  exact ⟨I, hI, function_eq call.inModule hG key ▸ call, path⟩

theorem climb_last_return (run : runOnModule A M = some s) {a : InstId} {m : NodePtr}
    (path : Climb (Labelled s) (.inst a) m) :
    Flat (Labelled s) (.inst a) m ∨
      ∃ G ∈ M.functions, ∃ R ∈ G.insts, R.opcode = .ret ∧ ∃ I ∈ M.insts, CallTo M I G ∧
        Climb (Labelled s) (.inst a) (.inst R.id) ∧
        Flat (Labelled s) (.callerOutput I.id (.inst I.id)) m := by
  induction path with
  | refl => exact Or.inl .refl
  | @tail b m before edge ih =>
    obtain ⟨l, notCall, edge⟩ := edge
    obtain ⟨dep, same⟩ := dependence_of_labelled run edge
    cases l with
    | neutral =>
      have step : Flat (Labelled s) b m := .single ⟨_, rfl, edge⟩
      rcases ih with flat | ⟨G, hG, R, hR, isRet, I, hI, call, toRet, flat⟩
      · exact Or.inl (flat.trans step)
      · exact Or.inr ⟨G, hG, R, hR, isRet, I, hI, call, toRet, flat.trans step⟩
    | call i => exact absurd rfl (notCall i)
    | ret i =>
      cases edge with
      | paramOut stored =>
        cases dep with
        | @paramOut I G hI call =>
          rcases Relation.ReflTransGen.cases_tail before with same | ⟨c, toC, ⟨l, notCall, edge⟩⟩
          · cases same
          · obtain ⟨dep, letterEq⟩ := dependence_of_labelled run edge
            rcases dependence_of_output dep with rfl | ⟨H, hH, key, R, hR, isRet, rfl⟩
            · exact absurd toC (not_climb_to_entry run)
            · have eq : H = G := function_eq hH call.inModule key
              exact Or.inr ⟨G, call.inModule, R, eq ▸ hR, isRet, I, hI, call, toC, .refl⟩
        | _ => cases same

theorem oneWay_of_realizable (above : ReturnsStayAbove M s) (run : runOnModule A M = some s)
    {a : InstId} {W : Instruction} (hW : W ∈ M.insts) {m : NodePtr}
    (up : Climb (Labelled s) (.inst a) m) (down : Descend (Labelled s) m (.inst W.id)) :
    Climb (Labelled s) (.inst a) (.inst W.id) ∨ Descend (Labelled s) (.inst a) (.inst W.id) := by
  rcases climb_last_return run up with flat | ⟨G, hG, R, hR, isRet, I, hI, call, toRet, flat⟩
  · exact Or.inr ((flat_descends flat).trans down)
  · have fromCall := from_caller_output run ((flat_descends flat).trans down)
    by_cases same : W = R
    · exact Or.inl (same ▸ toRet)
    · obtain ⟨I', hI', call', path⟩ := above G hG R hR isRet I hI call W hW same fromCall
      exact Or.inl ((toRet.trans (return_climbs run hG hR isRet hI' call')).trans path)

def OneWayVia (M : Module) (s : SDG) (a : InstId) (n : NodePtr) : Prop :=
  ∀ W ∈ M.insts, Climb (Labelled s) n (.inst W.id) →
    Climb (Labelled s) (.inst a) (.inst W.id) ∨ Descend (Labelled s) (.inst a) (.inst W.id)

theorem oneWayVia_of_call (shared : CallsShareReturns M s) {a : InstId} {I : Instruction}
    {F : Function} (hI : I ∈ M.insts) (call : CallTo M I F)
    (down : Descend (Labelled s) (.inst a) (.inst I.id)) (via : OneWayVia M s a (.inst I.id)) :
    OneWayVia M s a (.entry F.id) := by
  intro W hW climb
  rcases shared F call.inModule I hI call W hW climb with up | more
  · exact via W hW up
  · exact Or.inr (down.trans more)

theorem oneWay_of_descend (run : runOnModule A M = some s) (shared : CallsShareReturns M s)
    {a : InstId} {n : NodePtr} (down : Descend (Labelled s) (.inst a) n) :
    OneWayVia M s a n ∧ ∀ i v, n = .callerInput i v →
      Descend (Labelled s) (.inst a) (.inst i) ∧ OneWayVia M s a (.inst i) := by
  induction down with
  | refl => exact ⟨fun W _ climb => Or.inl climb, fun i v same => by cases same⟩
  | @tail b n before edge ih =>
    obtain ⟨l, notRet, edge⟩ := edge
    obtain ⟨dep, same⟩ := dependence_of_labelled run edge
    cases l with
    | ret i => exact absurd rfl (notRet i)
    | neutral =>
      refine ⟨fun W hW climb => ih.1 W hW (.head ⟨_, by simp, edge⟩ climb), ?_⟩
      rintro i v rfl
      cases dep with
      | actual hI call hv => exact ⟨before, ih.1⟩
    | call i =>
      cases edge with
      | call stored =>
        cases dep with
        | @call I F hI call =>
          exact ⟨oneWayVia_of_call shared hI call before ih.1, fun i v same => by cases same⟩
        | _ => cases same
      | paramIn stored =>
        cases dep with
        | @paramIn I F v f hI call matched =>
          obtain ⟨toCall, via⟩ := ih.2 _ _ rfl
          have enter := labelled_of_dependence run
            (.formal call.inModule call.defined (List.of_mem_zip matched).2)
          refine ⟨fun W hW climb => ?_, fun i v same => by cases same⟩
          exact oneWayVia_of_call shared hI call toCall via W hW
            (.head ⟨_, by simp [letter], enter⟩ climb)

/-- Every two-phase path between instructions has a calls-first path beside it exactly
    if returned values are not handed down. -/
theorem realizable_callsFirst_iff (correct : A.Correct M) (verified : M.Verified)
    (ends : M.ReturnsEnd) (run : runOnModule A M = some s) :
    (∀ I ∈ M.insts, ∀ J ∈ M.insts,
      (∃ m, Climb (Labelled s) (.inst I.id) m ∧ Descend (Labelled s) m (.inst J.id)) →
        ∃ m, Descend (Labelled s) (.inst I.id) m ∧ Climb (Labelled s) m (.inst J.id)) ↔
      ReturnsStayAbove M s := by
  constructor
  · intro dual G hG R hR isRet I hI call W hW other down
    have hRM : R ∈ M.insts := mem_module_insts.mpr ⟨G, hG, hR⟩
    obtain ⟨m, down, up⟩ :=
      dual R hRM W hW ⟨_, return_climbs run hG hR isRet hI call, down⟩
    exact callsFirst_from_return correct verified ends run hG hR isRet hW other down up
  · intro above I hI J hJ ⟨m, up, down⟩
    rcases oneWay_of_realizable above run hJ up down with climb | descend
    · exact ⟨_, .refl, climb⟩
    · exact ⟨_, descend, .refl⟩

theorem slices_of_pair (run : runOnModule A M = some s) (ordBack ordForward : Order NodePtr)
    (a b : InstId) :
    ∃ forward back,
      ForwardSlice.markVerticesOfForwardSlice ordForward s [.inst a] = some forward ∧
      BackSlice.markVerticesOfBackSlice ordBack s [.inst b] = some back ∧
      (.inst b ∈ forward ↔
        ∃ m, Descend (Labelled s) (.inst a) m ∧ Climb (Labelled s) m (.inst b)) ∧
      (.inst a ∈ back ↔
        ∃ m, Climb (Labelled s) (.inst a) m ∧ Descend (Labelled s) m (.inst b)) := by
  obtain ⟨forward, markForward, memForward⟩ := forwardMarked_of_run run ordForward [a]
  obtain ⟨back, markBack, memBack⟩ := backMarked_of_run run ordBack [b]
  refine ⟨forward, back, markForward, markBack, ?_, ?_⟩
  · simp [memForward, calls_first_iff]
  · simp [memBack, BackMarked]

end Duality

/-- The slicers are dual on every pair of instructions exactly if returned values are
    not handed down into callees and the calls of a function share what it returns to.
    The conditions speak of one-way paths from calls and entries only. -/
theorem slicers_dual_iff {A : Analyses} {M : Module} {s : SDG} (correct : A.Correct M)
    (verified : M.Verified) (ends : M.ReturnsEnd) (run : runOnModule A M = some s)
    (ordBack ordForward : Order NodePtr) :
    (∀ I ∈ M.insts, ∀ J ∈ M.insts, ∃ forward back,
      ForwardSlice.markVerticesOfForwardSlice ordForward s [.inst I.id] = some forward ∧
      BackSlice.markVerticesOfBackSlice ordBack s [.inst J.id] = some back ∧
      (.inst J.id ∈ forward ↔ .inst I.id ∈ back)) ↔
    ReturnsStayAbove M s ∧ CallsShareReturns M s := by
  constructor
  · intro dual
    have same : ∀ I ∈ M.insts, ∀ J ∈ M.insts,
        ((∃ m, Descend (Labelled s) (.inst I.id) m ∧ Climb (Labelled s) m (.inst J.id)) ↔
          ∃ m, Climb (Labelled s) (.inst I.id) m ∧ Descend (Labelled s) m (.inst J.id)) := by
      intro I hI J hJ
      obtain ⟨forward, back, markF, markB, agree⟩ := dual I hI J hJ
      obtain ⟨forward', back', markF', markB', memF, memB⟩ :=
        slices_of_pair run ordBack ordForward I.id J.id
      obtain rfl := Option.some.inj (markF.symm.trans markF')
      obtain rfl := Option.some.inj (markB.symm.trans markB')
      rw [← memF, ← memB, agree]
    have above := (realizable_callsFirst_iff correct verified ends run).mp
      fun I hI J hJ => (same I hI J hJ).mpr
    refine ⟨above, fun F hF I hI call W hW climb => ?_⟩
    have enter := labelled_of_dependence run (.call hI call)
    obtain ⟨m, up, down⟩ :=
      (same I hI W hW).mp ⟨_, .single ⟨_, by simp [letter], enter⟩, climb⟩
    exact oneWay_of_realizable above run hW up down
  · rintro ⟨above, shared⟩ I hI J hJ
    obtain ⟨forward, back, markF, markB, memF, memB⟩ :=
      slices_of_pair run ordBack ordForward I.id J.id
    refine ⟨forward, back, markF, markB, ?_⟩
    rw [memF, memB]
    constructor
    · rintro ⟨m, down, up⟩
      rcases (oneWay_of_descend run shared down).1 J hJ up with climb | descend
      · exact ⟨_, climb, .refl⟩
      · exact ⟨_, .refl, descend⟩
    · exact (realizable_callsFirst_iff correct verified ends run).mpr above I hI J hJ

def echoed : Module where
  functions := [
    { id := 0
      blocks := [⟨0, 0, [
        { id := 0, opcode := .other, operands := [.other 0] },
        { id := 1, opcode := .call, operands := [.inst 0, .func 1] },
        { id := 2, opcode := .ret, operands := [.inst 1] }]⟩] },
    { id := 1
      args := [0]
      blocks := [⟨1, 1, [{ id := 3, opcode := .ret, operands := [.arg 0] }]⟩] }]
  func_nodup := by decide
  block_nodup := by decide
  inst_nodup := by decide
  arg_nodup := by decide
  parent_eq := by decide

theorem echoed_dual : ∃ s, runOnModule blockPerFunction echoed = some s ∧
    (∀ I ∈ echoed.insts, ∀ J ∈ echoed.insts, ∃ forward back,
      ForwardSlice.markVerticesOfForwardSlice Order.head s [.inst I.id] = some forward ∧
      BackSlice.markVerticesOfBackSlice Order.head s [.inst J.id] = some back ∧
      (.inst J.id ∈ forward ↔ .inst I.id ∈ back)) ∧
    ReturnsStayAbove echoed s ∧ CallsShareReturns echoed s := by
  obtain ⟨s, run⟩ : ∃ s, runOnModule blockPerFunction echoed = some s :=
    Option.isSome_iff_exists.mp (by decide)
  have agree : ∀ I ∈ echoed.insts, ∀ J ∈ echoed.insts,
      ((runOnModule blockPerFunction echoed).bind fun s =>
        (ForwardSlice.markVerticesOfForwardSlice Order.head s [.inst I.id]).bind fun forward =>
          (BackSlice.markVerticesOfBackSlice Order.head s [.inst J.id]).map fun back =>
            decide (.inst J.id ∈ forward ↔ .inst I.id ∈ back)) = some true := by decide +kernel
  have dual : ∀ I ∈ echoed.insts, ∀ J ∈ echoed.insts, ∃ forward back,
      ForwardSlice.markVerticesOfForwardSlice Order.head s [.inst I.id] = some forward ∧
      BackSlice.markVerticesOfBackSlice Order.head s [.inst J.id] = some back ∧
      (.inst J.id ∈ forward ↔ .inst I.id ∈ back) := by
    intro I hI J hJ
    have pair := agree I hI J hJ
    rw [run] at pair
    simpa [Option.bind_eq_some_iff] using pair
  refine ⟨s, run, dual, ?_⟩
  exact (slicers_dual_iff (singleBlocks_correct rfl (by decide)) (by decide) (by decide) run
    Order.head Order.head).mp dual

/-- The return of function 1 is behind the computation in function 2, yet the
    forward slice of the former misses the latter. -/
theorem passedOn_not_dual : passedOn.Verified ∧ blockPerFunction.Correct passedOn ∧
    ∃ forward back,
      ((runOnModule blockPerFunction passedOn).bind fun s =>
        ForwardSlice.markVerticesOfForwardSlice Order.head s [.inst 3]) = some forward ∧
      ((runOnModule blockPerFunction passedOn).bind fun s =>
        BackSlice.markVerticesOfBackSlice Order.head s [.inst 4]) = some back ∧
      ¬ (.inst 4 ∈ forward ↔ .inst 3 ∈ back) := by
  refine ⟨by decide, singleBlocks_correct rfl (by decide),
    [.callerInput 1 (.inst 0), .callerOutput 1 (.inst 1), .inst 1, .inst 0,
      .callerOutput 0 (.inst 0), .calleeOutput 1, .inst 3],
    [.inst 5, .entry 1, .inst 3, .calleeOutput 2, .calleeOutput 1, .callerOutput 0 (.inst 0),
      .entry 0, .inst 0, .callerOutput 1 (.inst 1), .inst 1, .callerInput 1 (.inst 0), .entry 2,
      .calleeInput 0, .inst 4], by decide +kernel, by decide +kernel, by decide⟩

end ProgramSlicer
