import ProgramSlicer.CallSites

/-!
Which nodes the maps of the SDG hold. Step 1 makes the nodes while it walks the
predecessors of the blocks, so a point without a node would be one that the walk
misses; every later `operator[]` would default-construct an INVALID node there.
-/
namespace ProgramSlicer
open FoldRules ControlDependence

namespace NodeMap
variable {K : Type} [DecidableEq K]

def Made (m : NodeMap K) (keys : K → Prop) (made : K → SDGNode) : Prop :=
  ∀ x ∈ m, keys x.1 ∧ x.2 = made x.1

def Within (m : NodeMap K) (keys : K → Prop) (made : K → SDGNode) : Prop :=
  ∀ x ∈ m, keys x.1 ∧ (x.2 = made x.1 ∨ x.2 = {})

/-- Those keys and no others, each with the node made for it. -/
def Exactly (m : NodeMap K) (keys : K → Prop) (made : K → SDGNode) : Prop :=
  ∀ k node, m.find k = some node ↔ keys k ∧ node = made k

variable {m : NodeMap K} {keys : K → Prop} {made : K → SDGNode}

theorem isSome_insert {k j : K} {node : SDGNode} :
    ((m.insert k node).find j).isSome = true ↔ j = k ∨ (m.find j).isSome = true := by
  rw [find_insert]
  cases found : m.find j with
  | some old => simp
  | none => by_cases same : j = k <;> simp [same]

theorem made_insert (entries : Made m keys made) {k : K} (key : keys k) :
    Made (m.insert k (made k)) keys made := by
  intro x mem
  rcases mem_insert mem with rfl | old
  · exact ⟨key, rfl⟩
  · exact entries x old

theorem within_insert (within : Within m keys made) {k : K} (key : keys k) :
    Within (m.insert k (made k)) keys made := by
  intro x mem
  rcases mem_insert mem with rfl | old
  · exact ⟨key, .inl rfl⟩
  · exact within x old

theorem within_index (within : Within m keys made) {k : K} (key : keys k) :
    Within (m.index k) keys made := by
  intro x mem
  rcases mem_insert mem with rfl | old
  · exact ⟨key, .inr rfl⟩
  · exact within x old

theorem node_of_within (within : Within m keys made) {k : K} {node : SDGNode}
    (found : m.find k = some node) (value : node.value.isSome) : keys k ∧ node = made k := by
  obtain ⟨key, same | default⟩ := within (k, node) (mem_of_find found)
  · exact ⟨key, same⟩
  · obtain rfl : node = {} := default
    cases value

theorem find_of_made (entries : Made m keys made) {k : K} (found : (m.find k).isSome = true) :
    m.find k = some (made k) := by
  obtain ⟨node, here⟩ := Option.isSome_iff_exists.mp found
  obtain ⟨_, same⟩ := entries (k, node) (mem_of_find here)
  exact same ▸ here

theorem exactly_of_made (entries : Made m keys made)
    (found : ∀ k, keys k → (m.find k).isSome = true) : Exactly m keys made := by
  intro k node
  constructor
  · intro here
    exact entries (k, node) (mem_of_find here)
  · rintro ⟨key, rfl⟩
    exact find_of_made entries (found k key)

theorem exactly_of_within (within : Within m keys made)
    (valued : ∀ k, keys k → SDG.hasValue m k = true) : Exactly m keys made := by
  intro k node
  constructor
  · intro found
    obtain ⟨other, same, value⟩ := SDG.hasValue_iff.mp (valued k (within _ (mem_of_find found)).1)
    obtain rfl := Option.some.inj (same.symm.trans found)
    exact node_of_within within found value
  · rintro ⟨key, rfl⟩
    obtain ⟨node, found, value⟩ := SDG.hasValue_iff.mp (valued k key)
    rw [found, (node_of_within within found value).2]

theorem Exactly.found (exactly : Exactly m keys made) {k : K} (key : keys k) :
    (m.find k).isSome = true := by
  rw [(exactly k (made k)).mpr ⟨key, rfl⟩]
  rfl

theorem Exactly.index (exactly : Exactly m keys made) {k : K} (key : keys k) :
    Exactly (m.index k) keys made := by
  rw [index_of_found (exactly.found key)]
  exact exactly

end NodeMap

def Module.HasInst (M : Module) (i : InstId) : Prop := ∃ I ∈ M.insts, I.id = i

def Module.HasBody (M : Module) (f : FuncId) : Prop :=
  ∃ F ∈ M.functions, F.isDeclaration = false ∧ F.id = f

def Module.HasFormal (M : Module) (a : ArgId) : Prop :=
  ∃ F ∈ M.functions, F.isDeclaration = false ∧ a ∈ F.args

namespace SDG

/-! The nodes that the code constructs for a key. -/

def instNode (i : InstId) : SDGNode := ⟨.instruction, some (.inst i)⟩
def entryNode (f : FuncId) : SDGNode := ⟨.entry, some (.func f)⟩
def calleeInputNode (a : ArgId) : SDGNode := ⟨.calleeAux, some (.arg a)⟩
def calleeOutputNode (f : FuncId) : SDGNode := ⟨.calleeAux, some (.func f)⟩

/-- What the maps hold during step 1: only the entry map is read by `operator[]`. -/
structure MapsMade (M : Module) (s : SDG) : Prop where
  inst : s.instNodeMap.Made M.HasInst instNode
  entry : s.entryNodeMap.Within M.HasBody entryNode
  calleeInput : s.calleeInputNodeMap.Made M.HasFormal calleeInputNode
  calleeOutput : s.calleeOutputNodeMap.Made M.HasBody calleeOutputNode
  callers : s.callerInputNodeMap = [] ∧ s.callerOutputNodeMap = []

/-- Every program point has its node, and there are no others. -/
structure EveryPointHasNode (M : Module) (s : SDG) : Prop where
  inst : s.instNodeMap.Exactly M.HasInst instNode
  entry : s.entryNodeMap.Exactly M.HasBody entryNode
  calleeInput : s.calleeInputNodeMap.Exactly M.HasFormal calleeInputNode
  calleeOutput : s.calleeOutputNodeMap.Exactly M.HasBody calleeOutputNode

variable {A : Analyses} {M : Module} {s : SDG}

theorem mapsMade_start (M : Module) : MapsMade M {} := by
  constructor <;> simp [NodeMap.Made, NodeMap.Within]

section StepOne

theorem hasInst_of_block {D : BasicBlock} (hD : D ∈ M.blocks) {I : Instruction}
    (hI : I ∈ D.insts) : M.HasInst I.id := ⟨I, insts_of_block hD hI, rfl⟩

theorem insertInst_made (entries : MapsMade M s) {i : InstId} (key : M.HasInst i) :
    MapsMade M (s.insertInst i) :=
  { entries with inst := NodeMap.made_insert entries.inst key }

theorem controlBlock_made (entries : MapsMade M s) (src : NodePtr) {D : BasicBlock}
    (hD : D ∈ M.blocks) : MapsMade M (controlBlock src D s) := by
  refine foldl_keeps (P := MapsMade M) ?_ entries
  intro I hI t h
  have inserted := insertInst_made h (hasInst_of_block hD hI)
  exact { inserted with }

theorem hasBody_of_block {D : BasicBlock} (hD : D ∈ M.blocks) : M.HasBody D.parent := by
  obtain ⟨F, hF, hDF⟩ := mem_blocks.mp hD
  exact ⟨F, hF, defined_of_block hDF, (M.parent_eq F hF D hDF).symm⟩

theorem controlPred_made {D : BasicBlock} (hD : D ∈ M.blocks) {s' : SDG}
    {pred : Option BlockId} (run : controlPred M D s pred = some s') (entries : MapsMade M s) :
    MapsMade M s' := by
  cases pred with
  | none =>
    rw [controlPred_entry run]
    apply controlBlock_made _ _ hD
    exact { entries with entry := NodeMap.within_insert entries.entry (hasBody_of_block hD) }
  | some S =>
    obtain ⟨B, T, block, term, rfl⟩ := controlPred_block run
    apply controlBlock_made _ _ hD
    exact insertInst_made entries
      (hasInst_of_block (block_lookup.mp block).1 (terminator_mem term).1)

theorem calleeAux_made {F : Function} (hF : F ∈ M.functions) (defined : F.isDeclaration = false)
    (entries : MapsMade M s) : MapsMade M (calleeAux F s) := by
  have body : M.HasBody F.id := ⟨F, hF, defined, rfl⟩
  have inputs : MapsMade M (F.args.foldl (calleeInput F.id)
      { s with entryNodeMap := s.entryNodeMap.index F.id }) := by
    refine foldl_keeps (P := MapsMade M) ?_
      { entries with entry := NodeMap.within_index entries.entry body }
    intro a ha t h
    exact { h with calleeInput := NodeMap.made_insert h.calleeInput ⟨F, hF, defined, ha⟩ }
  exact { inputs with calleeOutput := NodeMap.made_insert inputs.calleeOutput body }

theorem stepOne_made {F : Function} (hF : F ∈ M.functions) {s' : SDG}
    (run : stepOne A M s F = some s') (entries : MapsMade M s) : MapsMade M s' := by
  rcases stepOne_cases run with ⟨_, rfl⟩ | ⟨defined, cdg, t, _, nodes, rfl⟩
  · exact entries
  · have walked : MapsMade M t := by
      refine controlNodes_keep (P := MapsMade M) ?_ nodes { entries with }
      intro D hD pred u u' step held
      exact controlPred_made hD step held
    exact calleeAux_made hF defined walked

structure CalleeNodes (F : Function) (s : SDG) : Prop where
  inputs : ∀ a ∈ F.args, (s.calleeInputNodeMap.find a).isSome = true
  output : (s.calleeOutputNodeMap.find F.id).isSome = true

theorem controlPred_callees {D : BasicBlock} {s' : SDG} {pred : Option BlockId}
    (run : controlPred M D s pred = some s') :
    s'.calleeInputNodeMap = s.calleeInputNodeMap ∧
      s'.calleeOutputNodeMap = s.calleeOutputNodeMap := by
  have block : ∀ src (t : SDG),
      (controlBlock src D t).calleeInputNodeMap = t.calleeInputNodeMap ∧
        (controlBlock src D t).calleeOutputNodeMap = t.calleeOutputNodeMap := by
    intro src t
    refine foldl_keeps (P := fun u : SDG => u.calleeInputNodeMap = t.calleeInputNodeMap ∧
      u.calleeOutputNodeMap = t.calleeOutputNodeMap) ?_ ⟨rfl, rfl⟩
    exact fun I _ u same => same
  cases pred with
  | none =>
    rw [controlPred_entry run]
    exact block _ _
  | some S =>
    obtain ⟨B, T, _, _, rfl⟩ := controlPred_block run
    exact block _ _

theorem calleeAux_callees (F G : Function) (nodes : CalleeNodes G s ∨ G = F) :
    CalleeNodes G (calleeAux F s) := by
  have input : ∀ (l : List ArgId) (t : SDG) (a : ArgId),
      ((l.foldl (calleeInput F.id) t).calleeInputNodeMap.find a).isSome = true ↔
        (t.calleeInputNodeMap.find a).isSome = true ∨ a ∈ l := by
    intro l t a
    rw [foldl_adds (R := fun u : SDG => (u.calleeInputNodeMap.find a).isSome = true)
      (E := fun b => a = b)]
    · simp
    · intro b _ u
      exact NodeMap.isSome_insert.trans or_comm
  constructor
  · intro a ha
    apply (input F.args _ a).mpr
    rcases nodes with old | rfl
    · exact .inl (old.inputs a ha)
    · exact .inr ha
  · apply NodeMap.isSome_insert.mpr
    rcases nodes with old | rfl
    · right
      have kept : ∀ t : SDG, (F.args.foldl (calleeInput F.id) t).calleeOutputNodeMap =
          t.calleeOutputNodeMap := by
        intro t
        refine foldl_keeps (P := fun u : SDG => u.calleeOutputNodeMap = t.calleeOutputNodeMap) ?_ rfl
        exact fun a _ u same => same
      rw [kept]
      exact old.output
    · exact .inl rfl

theorem stepOne_callees {F G : Function} {s' : SDG} (run : stepOne A M s F = some s')
    (nodes : CalleeNodes G s ∨ (G = F ∧ F.isDeclaration = false)) : CalleeNodes G s' := by
  rcases stepOne_cases run with ⟨declared, rfl⟩ | ⟨_, cdg, t, _, walk, rfl⟩
  · rcases nodes with old | ⟨_, defined⟩
    · exact old
    · rw [declared] at defined
      cases defined
  · have same : t.calleeInputNodeMap = s.calleeInputNodeMap ∧
        t.calleeOutputNodeMap = s.calleeOutputNodeMap := by
      refine controlNodes_keep (P := fun u : SDG => u.calleeInputNodeMap = s.calleeInputNodeMap ∧
        u.calleeOutputNodeMap = s.calleeOutputNodeMap) ?_ walk ⟨rfl, rfl⟩
      intro D _ pred u u' step held
      obtain ⟨inputs, outputs⟩ := controlPred_callees step
      exact ⟨inputs.trans held.1, outputs.trans held.2⟩
    apply calleeAux_callees
    rcases nodes with old | ⟨here, _⟩
    · left
      exact ⟨fun a ha => by rw [same.1]; exact old.inputs a ha, by rw [same.2]; exact old.output⟩
    · exact .inr here

theorem stepsOne_total (correct : A.Correct M) (verified : M.Verified)
    (exits : ∀ F ∈ M.functions, ∀ B ∈ F.blocks, ReachesExit F.Edge B.id) :
    ∃ s, M.functions.foldlM (stepOne A M) {} = some s := by
  obtain ⟨s, run, _⟩ := foldlM_total (P := fun t : SDG => BlocksOnly M t.cdg)
    (f := stepOne A M) (l := M.functions) (s := {})
    (fun F hF t before => stepOne_total hF (correct F hF) verified (exits F hF) before)
    (blocksOnly_start M)
  exact ⟨s, run⟩

theorem stepsOne_points (correct : A.Correct M) (verified : M.Verified)
    (free : ∀ F ∈ M.functions, F.isDeclaration = false → HasFreeBlock F)
    (run : M.functions.foldlM (stepOne A M) {} = some s) : EveryPointHasNode M s := by
  have made : MapsMade M s := foldlM_keeps (P := MapsMade M)
    (fun F hF _ _ one h => stepOne_made hF one h) run (mapsMade_start M)
  have ready := stepsOne_ready correct verified run
  have callees : ∀ F ∈ M.functions, F.isDeclaration = false → CalleeNodes F s := by
    intro F hF defined
    exact foldlM_establishes (f := stepOne A M) (P := CalleeNodes F)
      (fun G _ t t' one old => stepOne_callees one (.inl old)) hF
      (fun t t' one => stepOne_callees one (.inr ⟨rfl, defined⟩)) run
  constructor
  case inst =>
    apply NodeMap.exactly_of_made made.inst
    rintro i ⟨I, hI, rfl⟩
    obtain ⟨node, found, _⟩ := hasValue_iff.mp (ready.inst I hI)
    rw [found]
    rfl
  case entry =>
    apply NodeMap.exactly_of_within made.entry
    rintro f ⟨F, hF, defined, rfl⟩
    exact (ready.entry F hF defined).mpr (free F hF defined)
  case calleeInput =>
    apply NodeMap.exactly_of_made made.calleeInput
    rintro a ⟨F, hF, defined, ha⟩
    exact (callees F hF defined).inputs a ha
  case calleeOutput =>
    apply NodeMap.exactly_of_made made.calleeOutput
    rintro f ⟨F, hF, defined, rfl⟩
    exact (callees F hF defined).output

end StepOne

section LaterSteps

def CallsBody (M : Module) (i : InstId) : Prop := ∃ I ∈ M.insts, I.id = i ∧ ∃ F, CallTo M I F

/-- A property of the maps that step 2 keeps: it looks up what the module has, and only
inserts nodes for the actuals and the results of calls of functions with bodies. -/
structure StepTwoKeeps (M : Module) (P : SDG → Prop) : Prop where
  graph : ∀ s g, P s → P { s with graph := g }
  inst : ∀ s i, M.HasInst i → P s → P { s with instNodeMap := s.instNodeMap.index i }
  entry : ∀ s f, M.HasBody f → P s → P { s with entryNodeMap := s.entryNodeMap.index f }
  calleeInput : ∀ s a, M.HasFormal a → P s →
    P { s with calleeInputNodeMap := s.calleeInputNodeMap.index a }
  calleeOutput : ∀ s f, M.HasBody f → P s →
    P { s with calleeOutputNodeMap := s.calleeOutputNodeMap.index f }
  callerInput : ∀ s i v, CallsBody M i → P s → P { s with
    callerInputNodeMap := s.callerInputNodeMap.insert (i, v) ⟨.callerAux, some v⟩ }
  callerOutput : ∀ s i, CallsBody M i → P s → P { s with
    callerOutputNodeMap := s.callerOutputNodeMap.insert (i, .inst i) ⟨.callerAux, some (.inst i)⟩ }

/-- A property of the maps that steps 2 to 4 keep. Step 3 looks up the result of every call. -/
structure Survives (M : Module) (P : SDG → Prop) : Prop extends StepTwoKeeps M P where
  defs : ∀ s defs, P s → P { s with defNodeMap := defs }
  callReturn : ∀ s i, M.HasInst i → P s →
    P { s with callerOutputNodeMap := s.callerOutputNodeMap.index (i, .inst i) }

section
variable {P : SDG → Prop} (keeps : StepTwoKeeps M P)
include keeps

theorem link_keeps (src dst : NodePtr) (attr : Nat) (h : P s) : P (s.link src dst attr) :=
  keeps.graph s _ h

theorem callerInputs_keeps {ci : InstId} (call : CallsBody M ci) {vs : List Value}
    {formals : List ArgId} (known : ∀ a ∈ formals, M.HasFormal a) {s' : SDG}
    (run : callerInputs ci vs formals s = some s') (h : P s) : P s' := by
  refine callerInputs_keep (P := P) (fun v a t ha held => ?_) run h
  apply link_keeps keeps
  apply keeps.calleeInput _ a (known a ha)
  apply link_keeps keeps
  exact keeps.callerInput t ci v call held

theorem stepTwo_keeps {I : Instruction} (hI : I ∈ M.insts) {s' : SDG}
    (run : stepTwo M s I = some s') (h : P s) : P s' := by
  rcases stepTwo_cases run with ⟨rfl, _⟩ | ⟨F, callTo, connected⟩
  · exact h
  · obtain ⟨_, _, t, inputs, rfl⟩ := connectCall_cases connected
    have callee : M.HasBody F.id := ⟨F, callTo.inModule, callTo.defined, rfl⟩
    have call : CallsBody M I.id := ⟨I, hI, rfl, F, callTo⟩
    have actuals : P t := by
      refine callerInputs_keeps keeps call
        (fun a ha => ⟨F, callTo.inModule, callTo.defined, ha⟩) inputs ?_
      apply link_keeps keeps
      exact keeps.entry { s with instNodeMap := s.instNodeMap.index I.id } F.id callee
        (keeps.inst s I.id ⟨I, hI, rfl⟩ h)
    apply link_keeps keeps
    apply keeps.calleeOutput _ F.id callee
    apply link_keeps keeps
    exact keeps.callerOutput t I.id call actuals

end

variable {P : SDG → Prop} (survives : Survives M P)
include survives

theorem link_survives (src dst : NodePtr) (attr : Nat) (h : P s) : P (s.link src dst attr) :=
  survives.graph s _ h

theorem intraInst_survives {F : Function} (hF : F ∈ M.functions) {I : Instruction}
    (hI : I ∈ F.insts) {s' : SDG} (run : intraInst F.id s I = some s') (h : P s) : P s' := by
  obtain ⟨B, hB, _⟩ := mem_insts.mp hI
  have body : M.HasBody F.id := ⟨F, hF, defined_of_block hB, rfl⟩
  have known : M.HasInst I.id := ⟨I, mem_module_insts.mpr ⟨F, hF, hI⟩, rfl⟩
  obtain ⟨_, t, uses, rfl⟩ := intraInst_cases run
  have used : P t := by
    refine foldlM_keeps (P := P) ?_ uses h
    intro v _ u u' one held
    rcases defUse_cases one with ⟨j, _, _, rfl⟩ | ⟨a, _, _, rfl⟩ | ⟨_, _, rfl⟩
    · exact link_survives survives _ _ _ held
    · exact link_survives survives _ _ _ held
    · exact held
  have returned : P (returnFlow F.id I t) := by
    unfold returnFlow
    split
    · exact link_survives survives _ _ _ (survives.calleeOutput t F.id body used)
    · exact used
  unfold callReturnFlow
  split
  · exact link_survives survives _ _ _ (survives.callReturn _ I.id known returned)
  · exact returned

theorem generateIntraDDG_survives {F : Function} (hF : F ∈ M.functions) {s' : SDG}
    (run : generateIntraDDG s F = some s') (h : P s) : P s' :=
  foldlM_keeps (P := P) (fun _ hI _ _ one held => intraInst_survives survives hF hI one held) run h

theorem generateDefNodeMap_survives {s' : SDG} (run : generateDefNodeMap A M s = some s')
    (h : P s) : P s' := by
  obtain ⟨m, rfl⟩ := generateDefNodeMap_defNodeMap run
  exact survives.defs s m h

theorem generatePointerEdges_survives (h : P s) : P (generatePointerEdges M s) := by
  refine generatePointerEdges_keep (P := P) (fun L hL src t held => ?_) h
  apply link_survives survives
  exact survives.inst t L.id ⟨L, hL, rfl⟩ held

omit survives in
theorem runOnModule_laterSteps (run : runOnModule A M = some s) :
    ∃ s1 s2, M.functions.foldlM (stepOne A M) {} = some s1 ∧
      M.insts.foldlM (stepTwo M) s1 = some s2 ∧ ∀ P, Survives M P → P s2 → P s := by
  obtain ⟨s1, s2, s3, s4, one, two, three, four, last⟩ := runOnModule_cases run
  refine ⟨s1, s2, one, two, ?_⟩
  intro P survives start
  have after3 : P s3 := foldlM_keeps (P := P)
    (fun F hF _ _ step h => generateIntraDDG_survives survives hF step h) three start
  rw [last]
  exact generatePointerEdges_survives survives (generateDefNodeMap_survives survives four after3)

theorem runOnModule_survives (run : runOnModule A M = some s)
    (start : ∀ s1, M.functions.foldlM (stepOne A M) {} = some s1 → P s1) : P s := by
  obtain ⟨s1, s2, one, two, later⟩ := runOnModule_laterSteps run
  refine later P survives (foldlM_keeps (P := P) ?_ two (start s1 one))
  exact fun I hI _ _ step h => stepTwo_keeps survives.toStepTwoKeeps hI step h

omit survives

/-- No lookup of a point that the module has changes the maps. -/
theorem points_survive (M : Module) : Survives M (EveryPointHasNode M) where
  graph _ _ h := { h with }
  defs _ _ h := { h with }
  inst _ _ key h := { h with inst := h.inst.index key }
  entry _ _ key h := { h with entry := h.entry.index key }
  calleeInput _ _ key h := { h with calleeInput := h.calleeInput.index key }
  calleeOutput _ _ key h := { h with calleeOutput := h.calleeOutput.index key }
  callerInput _ _ _ _ h := { h with }
  callerOutput _ _ _ h := { h with }
  callReturn _ _ _ h := { h with }

end LaterSteps

section Assertions

theorem generateIntraDDG_total (verified : M.Verified) (points : EveryPointHasNode M s)
    {F : Function} (hF : F ∈ M.functions) :
    ∃ s', generateIntraDDG s F = some s' ∧ EveryPointHasNode M s' := by
  refine foldlM_total (P := EveryPointHasNode M) ?_ points
  intro I hI t held
  have hasInst : ∀ J ∈ F.insts, M.HasInst J.id := by
    intro J hJ
    exact ⟨J, mem_module_insts.mpr ⟨F, hF, hJ⟩, rfl⟩
  obtain ⟨u, uses, _⟩ := foldlM_total (P := EveryPointHasNode M) (f := defUse I.id)
    (l := I.operands) (s := t)
    (fun v hv w used => by
      have local_ := verified.operand_local F hF I hI v hv
      cases v with
      | inst j =>
        obtain ⟨J, hJ, rfl⟩ := local_
        exact ⟨_, if_pos (used.inst.found (hasInst J hJ)), (points_survive M).graph w _ used⟩
      | arg a =>
        obtain ⟨B, hB, _⟩ := mem_insts.mp hI
        have formal : M.HasFormal a := ⟨F, hF, defined_of_block hB, local_⟩
        exact ⟨_, if_pos (used.calleeInput.found formal), (points_survive M).graph w _ used⟩
      | func f => exact ⟨w, rfl, used⟩
      | other k => exact ⟨w, rfl, used⟩) held
  have run : intraInst F.id t I = some (callReturnFlow I (returnFlow F.id I u)) := by
    unfold intraInst
    rw [if_pos (held.inst.found (hasInst I hI)), uses]
    rfl
  exact ⟨_, run, intraInst_survives (points_survive M) hF hI run held⟩

theorem entryAsserted_of_points (points : EveryPointHasNode M s) (F : Function) :
    BackSlice.entryAsserted s F = true := by
  unfold BackSlice.entryAsserted
  cases found : s.entryNodeMap.find F.id with
  | none => rfl
  | some node =>
    obtain ⟨_, rfl⟩ := (points.entry F.id node).mp found
    rfl

/-- Where no first block has a predecessor and every block reaches an exit, step 1 gives
every program point its node; step 2 changes none however far it comes, step 3 comes
through, and no slicer's removal fails an assertion. -/
theorem runOnModule_points (correct : A.Correct M) (verified : M.Verified)
    (first : M.EntriesFirst)
    (exits : ∀ F ∈ M.functions, ∀ B ∈ F.blocks, ReachesExit F.Edge B.id) :
    ∃ s1, M.functions.foldlM (stepOne A M) {} = some s1 ∧ EveryPointHasNode M s1 ∧
      (∀ done s2, done <+: M.insts → done.foldlM (stepTwo M) s1 = some s2 →
        EveryPointHasNode M s2) ∧
      (∀ s2, M.insts.foldlM (stepTwo M) s1 = some s2 → ∃ s3,
        M.functions.foldlM generateIntraDDG s2 = some s3 ∧ EveryPointHasNode M s3) ∧
      ∀ s, runOnModule A M = some s → EveryPointHasNode M s ∧ ∀ marked,
        (∃ fs, BackSlice.sliceModule s marked M = some fs) ∧
          ∃ fs, ForwardSlice.sliceModule s marked M = some fs := by
  obtain ⟨s1, one⟩ := stepsOne_total correct verified exits
  have free : ∀ F ∈ M.functions, F.isDeclaration = false → HasFreeBlock F :=
    fun F hF defined => hasFreeBlock_of_first verified first hF defined (exits F hF)
  have points : ∀ s1, M.functions.foldlM (stepOne A M) {} = some s1 → EveryPointHasNode M s1 :=
    fun _ run => stepsOne_points correct verified free run
  have calls : ∀ done s2, done <+: M.insts → done.foldlM (stepTwo M) s1 = some s2 →
      EveryPointHasNode M s2 := by
    intro done s2 part two
    exact foldlM_keeps (P := EveryPointHasNode M)
      (fun I hI _ _ step h => stepTwo_keeps (points_survive M).toStepTwoKeeps (part.subset hI) step h)
      two (points s1 one)
  refine ⟨s1, one, points s1 one, calls, ?_, ?_⟩
  · intro s2 two
    exact foldlM_total (P := EveryPointHasNode M)
      (fun F hF _ h => generateIntraDDG_total verified h hF) (calls _ s2 (List.prefix_refl _) two)
  · intro s run
    have after := runOnModule_survives (points_survive M) run points
    refine ⟨after, ?_⟩
    intro marked
    exact ⟨backSlice_total run (fun F _ => entryAsserted_of_points after F) marked,
      _, forwardSlice_total run marked⟩

end Assertions

/-- A function with a loop that calls another function. -/
theorem loopedInvoke_points : ∃ s, runOnModule loopedAnalyses loopedInvoke = some s ∧
    EveryPointHasNode loopedInvoke s ∧
    ∃ fs, BackSlice.sliceModule s [.inst 2, .inst 3] loopedInvoke = some fs := by
  obtain ⟨s, run⟩ := loopedInvoke_completes
  have exits : ∀ F ∈ loopedInvoke.functions, ∀ B ∈ F.blocks, ReachesExit F.Edge B.id :=
    fun F hF B _ => (runOnModule_cdg loopedInvoke_correct (by decide) run).2 F hF B.id
  obtain ⟨_, _, _, _, _, slices⟩ := runOnModule_points loopedInvoke_correct (by decide)
    (by decide) exits
  obtain ⟨points, removed⟩ := slices s run
  exact ⟨s, run, points, (removed [.inst 2, .inst 3]).1⟩

end SDG
end ProgramSlicer
