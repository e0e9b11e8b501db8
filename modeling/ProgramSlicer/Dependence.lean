import ProgramSlicer.SdgEdges

/-!
The whole run of `SDG::runOnModule`: the pairs it connects, listed by the place
in the source that inserts them. The memory edges and the control edges are
relative to the alias sets and to the block graph the run was given.
-/
namespace ProgramSlicer
open FoldRules

namespace CDG

/-- A part of the construction of a block graph. -/
structure Grows (g g' : Graph) : Prop where
  conn : ∀ a b, g.Connected a b → g'.Connected a b
  listed : g.NodesListed → g'.NodesListed
  used : g.NodesUsed → g'.NodesUsed

theorem grows_refl (g : Graph) : Grows g g := ⟨fun _ _ h => h, fun h => h, fun h => h⟩

theorem grows_trans {g h k : Graph} (first : Grows g h) (second : Grows h k) : Grows g k :=
  ⟨fun a b edge => second.conn a b (first.conn a b edge),
    fun listed => second.listed (first.listed listed), fun used => second.used (first.used used)⟩

theorem grows_insert (g : Graph) (A B : Option BlockId) : Grows g (g.insert A B) :=
  ⟨fun _ _ edge => DirectedGraph.connected_insert.mpr (Or.inr edge),
    fun listed => DirectedGraph.nodesListed_insert listed A B none,
    fun used => DirectedGraph.nodesUsed_insert used A B none⟩

theorem climb_grows (B : BlockId) (stop : Option DomTreeNode) (node : DomTreeNode)
    (N : Option BlockId) (g : Graph) : Grows g (climb B stop node N g) := by
  induction node generalizing N g with
  | root b =>
    unfold climb
    split
    · exact grows_refl g
    · exact grows_insert g (some B) N
  | child b idom ih =>
    unfold climb
    split
    · exact grows_refl g
    · exact grows_trans (grows_insert g (some B) N) (ih idom.getBlock _)

theorem visitSuccessor_grows {t : PostDominatorTree} {B N : BlockId} {g g' : Graph}
    (run : visitSuccessor t B g N = some g') : Grows g g' := by
  unfold visitSuccessor at run
  split at run
  · simp at run
  · split at run
    · rw [← Option.some.inj run]
      exact climb_grows B _ _ _ g
    · split at run
      · rw [← Option.some.inj run]
        exact grows_refl g
      · simp at run

theorem addEntryEdge_grows (g : Graph) (B : BasicBlock) : Grows g (addEntryEdge g B) := by
  unfold addEntryEdge
  split
  · exact grows_insert g none (some B.id)
  · exact grows_refl g

theorem runOnFunction_grows {t : PostDominatorTree} {F : Function} {g g' : Graph}
    (run : runOnFunction t F g = some g') : Grows g g' := by
  obtain ⟨walked, walk, last⟩ := bind_some run
  have same : F.blocks.foldl addEntryEdge walked = g' := by simpa using last
  have walkGrows : Grows g walked := foldlM_keeps (P := Grows g)
    (fun B _ h h' inner grown => grows_trans grown (foldlM_keeps (P := Grows h)
      (fun N _ k k' one before => grows_trans before (visitSuccessor_grows one))
      inner (grows_refl h))) walk (grows_refl g)
  rw [← same]
  exact foldl_keeps (P := Grows g)
    (fun B _ h grown => grows_trans grown (addEntryEdge_grows h B)) walkGrows

end CDG

namespace SDG

/-- The state after step 1 has been run on the functions of `done`. -/
structure AfterStepOne (M : Module) (done : List Function) (s : SDG) : Prop where
  cdg_listed : s.cdg.NodesListed
  no_defs : s.defNodeMap = []
  conn : ∀ a b, s.Conn a b ↔ ControlPart M s.cdg a b ∨ ∃ F ∈ done, CalleeEdge F a b
  shaped : ∀ x ∈ s.graph.edges, Shaped x
  listed : s.graph.NodesListed

theorem controlPart_grows {M : Module} {g g' : CDG.Graph} (grown : CDG.Grows g g')
    {a b : NodePtr} (edge : ControlPart M g a b) : ControlPart M g' a b := by
  obtain ⟨D, hD, pred, conn, edge⟩ := edge
  exact ⟨D, hD, pred, grown.conn _ _ conn, edge⟩

theorem stepOne_afterStepOne {A : Analyses} {M : Module} {F : Function} {done : List Function}
    {s s' : SDG} (before : AfterStepOne M done s) (run : stepOne A M s F = some s') :
    AfterStepOne M (done ++ [F]) s' := by
  rcases stepOne_cases run with ⟨declared, rfl⟩ | ⟨defined, cdg, t, cdgRun, nodes, rfl⟩
  · have nothing : ∀ a b, ¬ CalleeEdge F a b := fun a b edge => by simp [edge.1] at declared
    refine ⟨before.cdg_listed, before.no_defs, fun a b => ?_, before.shaped, before.listed⟩
    simp [before.conn, or_and_right, exists_or, nothing]
  · have grown := CDG.runOnFunction_grows cdgRun
    have listed := grown.listed before.cdg_listed
    have control := controlNodes_extends listed nodes
    have aux := calleeAux_extends defined t
    have cdgEq : (calleeAux F t).cdg = cdg := aux.cdg.trans control.cdg
    refine ⟨cdgEq ▸ listed, aux.defs.trans (control.defs.trans before.no_defs),
      fun a b => ?_, fun x hx => ?_, aux.listed (control.listed before.listed)⟩
    · have old : ControlPart M s.cdg a b → ControlPart M cdg a b := controlPart_grows grown
      rw [aux.conn, control.conn, cdgEq]
      have start := before.conn a b
      simp only [Conn, List.mem_append, List.mem_singleton, or_and_right, exists_or,
        exists_eq_left] at start ⊢
      rw [start]
      constructor
      · rintro (((control | done) | control) | new)
        · exact Or.inl (old control)
        · exact Or.inr (Or.inl done)
        · exact Or.inl control
        · exact Or.inr (Or.inr new)
      · rintro (control | done | new)
        · exact Or.inl (Or.inr control)
        · exact Or.inl (Or.inl (Or.inr done))
        · exact Or.inr new
    · rcases aux.shaped x hx with mid | new
      · exact (control.shaped x mid).elim (before.shaped x) id
      · exact new

theorem stepsOne_afterStepOne {A : Analyses} {M : Module} {l done : List Function} {s s' : SDG}
    (before : AfterStepOne M done s) (run : l.foldlM (stepOne A M) s = some s') :
    AfterStepOne M (done ++ l) s' := by
  induction l generalizing done s with
  | nil =>
    have same : s = s' := by simpa using run
    simpa [same] using before
  | cons F l ih =>
    rw [List.foldlM_cons] at run
    obtain ⟨t, first, rest⟩ := bind_some run
    have next := ih (stepOne_afterStepOne before first) rest
    simpa using next

theorem afterStepOne_start (M : Module) : AfterStepOne M [] {} where
  cdg_listed := DirectedGraph.nodesListed_empty
  no_defs := rfl
  conn a b := by
    have noEdge : ¬ ControlPart M {} a b := fun ⟨D, _, pred, conn, _⟩ =>
      DirectedGraph.not_connected_empty pred (some D.id) conn
    simp [noEdge, Conn, DirectedGraph.not_connected_empty]
  shaped x hx := by simp at hx
  listed := DirectedGraph.nodesListed_empty

/-- A store that the alias sets relate to instruction i. -/
def StoreDef (A : Analyses) (S : Instruction) (i : InstId) (node : NodePtr) : Prop :=
  S.opcode = .store ∧ ∃ v, S.storePointer = some v ∧ .inst i ∈ A.aliasSet v ∧ node = .inst S.id

theorem recordPointer_defs {store i : InstId} {v : Value} {node : NodePtr} {s s' : SDG}
    (run : recordPointer store s v = some s') :
    InDef s'.defNodeMap i node ↔ InDef s.defNodeMap i node ∨ v = .inst i ∧ node = .inst store := by
  obtain ⟨j, rfl, rfl⟩ := recordPointer_cases run
  rw [inDef_recordDef, Value.inst.injEq, eq_comm (a := i)]

theorem recordStore_defs {A : Analyses} {S : Instruction} {i : InstId} {node : NodePtr}
    {s s' : SDG} (run : recordStore A s S = some s') :
    InDef s'.defNodeMap i node ↔ InDef s.defNodeMap i node ∨ StoreDef A S i node := by
  rcases recordStore_cases run with ⟨notStore, rfl⟩ | ⟨isStore, v, pointer, rest⟩
  · simp [StoreDef, notStore]
  · rw [foldlM_adds (R := fun t : SDG => InDef t.defNodeMap i node)
      (fun w _ t t' one => recordPointer_defs one) rest]
    simp only [StoreDef, isStore, pointer, true_and, Option.some.injEq, ↓existsAndEq]

theorem generateDefNodeMap_graph {A : Analyses} {M : Module} {s s' : SDG}
    (run : generateDefNodeMap A M s = some s') : s'.graph = s.graph ∧ s'.cdg = s.cdg := by
  obtain ⟨m, rfl⟩ := generateDefNodeMap_defNodeMap run
  exact ⟨rfl, rfl⟩

theorem generateDefNodeMap_defs {A : Analyses} {M : Module} {s s' : SDG}
    (run : generateDefNodeMap A M s = some s') (fresh : s.defNodeMap = []) (i : InstId)
    (node : NodePtr) : InDef s'.defNodeMap i node ↔ ∃ S ∈ M.insts, StoreDef A S i node := by
  rw [foldlM_adds (R := fun t : SDG => InDef t.defNodeMap i node)
    (fun S _ t t' one => recordStore_defs one) run]
  simp [InDef, fresh]

theorem mem_loadUsers {M : Module} {d : InstId} {L : Instruction} :
    L ∈ loadUsers M d ↔ L ∈ M.insts ∧ L.opcode = .load ∧ .inst d ∈ L.operands := by
  simp [loadUsers]

theorem edgeKind_inst (a : NodePtr) (i : InstId) : edgeKind a (.inst i) = .neutral := by
  cases a <;> rfl

theorem generatePointerEdges_extends (M : Module) (s : SDG) :
    Extends (fun a b => ∃ i, InDef s.defNodeMap i a ∧ ∃ L ∈ loadUsers M i, b = .inst L.id) s
      (generatePointerEdges M s) := by
  have edge : ∀ src L s, Extends (fun a b => a = src ∧ b = .inst L.id) s (pointerEdge src s L) :=
    fun src L s => extends_link rfl rfl rfl (by simp [edgeKind_inst, EdgeKind.attrs])
  refine extends_congr (extends_foldl (fun it _ s => extends_foldl (fun src _ s =>
    extends_foldl (fun L _ s => edge src L s) s) s) s) ?_
  intro a b
  constructor
  · intro inserted
    obtain ⟨it, hit, src, hsrc, L, hL, ha, hb⟩ := inserted
    exact ⟨it.1, ⟨it.2, hit, ha ▸ hsrc⟩, L, hL, hb⟩
  · intro recorded
    obtain ⟨i, ⟨nodes, hit, ha⟩, L, hL, hb⟩ := recorded
    exact ⟨(i, nodes), hit, a, ha, L, hL, rfl, hb⟩

/-- One constructor for each `graph.insert` of the construction. -/
inductive Dependence (A : Analyses) (M : Module) (cdg : CDG.Graph) : NodePtr → NodePtr → Prop where
  | control {S D : BasicBlock} {T I : Instruction} (hS : S ∈ M.blocks) (hD : D ∈ M.blocks)
      (edge : cdg.Connected (some S.id) (some D.id)) (term : S.getTerminator = some T)
      (hI : I ∈ D.insts) : Dependence A M cdg (.inst T.id) (.inst I.id)
  | entryControl {D : BasicBlock} {I : Instruction} (hD : D ∈ M.blocks)
      (edge : cdg.Connected none (some D.id)) (hI : I ∈ D.insts) :
      Dependence A M cdg (.entry D.parent) (.inst I.id)
  | formal {F : Function} {f : ArgId} (hF : F ∈ M.functions) (defined : F.isDeclaration = false)
      (hf : f ∈ F.args) : Dependence A M cdg (.entry F.id) (.calleeInput f)
  | result {F : Function} (hF : F ∈ M.functions) (defined : F.isDeclaration = false) :
      Dependence A M cdg (.entry F.id) (.calleeOutput F.id)
  | call {I : Instruction} {F : Function} (hI : I ∈ M.insts) (call : CallTo M I F) :
      Dependence A M cdg (.inst I.id) (.entry F.id)
  | actual {I : Instruction} {F : Function} {v : Value} (hI : I ∈ M.insts) (call : CallTo M I F)
      (hv : v ∈ I.argOperands) : Dependence A M cdg (.inst I.id) (.callerInput I.id v)
  | paramIn {I : Instruction} {F : Function} {v : Value} {f : ArgId} (hI : I ∈ M.insts)
      (call : CallTo M I F) (matched : (v, f) ∈ I.argOperands.zip F.args) :
      Dependence A M cdg (.callerInput I.id v) (.calleeInput f)
  | returned {I : Instruction} {F : Function} (hI : I ∈ M.insts) (call : CallTo M I F) :
      Dependence A M cdg (.inst I.id) (.callerOutput I.id (.inst I.id))
  | paramOut {I : Instruction} {F : Function} (hI : I ∈ M.insts) (call : CallTo M I F) :
      Dependence A M cdg (.calleeOutput F.id) (.callerOutput I.id (.inst I.id))
  | operand {I : Instruction} {j : InstId} (hI : I ∈ M.insts) (used : .inst j ∈ I.operands) :
      Dependence A M cdg (.inst j) (.inst I.id)
  | argument {I : Instruction} {f : ArgId} (hI : I ∈ M.insts) (used : .arg f ∈ I.operands) :
      Dependence A M cdg (.calleeInput f) (.inst I.id)
  | ret {F : Function} {I : Instruction} (hF : F ∈ M.functions) (hI : I ∈ F.insts)
      (isRet : I.opcode = .ret) : Dependence A M cdg (.inst I.id) (.calleeOutput F.id)
  | callReturn {I : Instruction} (hI : I ∈ M.insts) (isCall : I.opcode = .call) :
      Dependence A M cdg (.callerOutput I.id (.inst I.id)) (.inst I.id)
  | memory {S L : Instruction} {d : InstId} (hS : S ∈ M.insts) (store : StoreDef A S d (.inst S.id))
      (hL : L ∈ M.insts) (isLoad : L.opcode = .load) (used : .inst d ∈ L.operands) :
      Dependence A M cdg (.inst S.id) (.inst L.id)

section WholeRun
variable {A : Analyses} {M : Module} {s : SDG}

/-- What the run inserts, one disjunct for each of its steps. -/
def Inserted (A : Analyses) (M : Module) (cdg : CDG.Graph) (a b : NodePtr) : Prop :=
  (ControlPart M cdg a b ∨ ∃ F ∈ M.functions, CalleeEdge F a b) ∨
  (∃ I ∈ M.insts, ∃ F, CallTo M I F ∧ CallEdge I F a b) ∨
  (∃ F ∈ M.functions, ∃ I ∈ F.insts, FlowEdge F.id I a b) ∨
  ∃ i, (∃ S ∈ M.insts, StoreDef A S i a) ∧ ∃ L ∈ loadUsers M i, b = .inst L.id

/-- What is known of a finished SDG. -/
structure Built (A : Analyses) (M : Module) (s : SDG) : Prop where
  conn : ∀ a b, s.Conn a b ↔ Inserted A M s.cdg a b
  shaped : ∀ x ∈ s.graph.edges, Shaped x
  listed : s.graph.NodesListed

theorem runOnModule_built (run : runOnModule A M = some s) : Built A M s := by
  obtain ⟨s1, s2, s3, s4, one, two, three, four, same⟩ := runOnModule_cases run
  have first := stepsOne_afterStepOne (afterStepOne_start M) one
  have calls := extends_foldlM (fun I _ s s' step => stepTwo_extends step) two
  have flows := extends_foldlM (fun F _ s s' inner =>
    extends_foldlM (fun I _ s s' step => intraInst_extends step) inner) three
  obtain ⟨graph, cdg⟩ := generateDefNodeMap_graph four
  have defs := generateDefNodeMap_defs four (flows.defs.trans (calls.defs.trans first.no_defs))
  have pointers := generatePointerEdges_extends M s4
  rw [← same] at pointers
  have cdgEq : s.cdg = s1.cdg := pointers.cdg.trans (cdg.trans (flows.cdg.trans calls.cdg))
  refine ⟨fun a b => ?_, fun x hx => ?_, pointers.listed ?_⟩
  · have keep : s4.Conn a b ↔ s3.Conn a b := by unfold Conn; rw [graph]
    rw [pointers.conn, keep, flows.conn, calls.conn, first.conn]
    simp only [Inserted, cdgEq, defs, List.nil_append, or_assoc]
  · rcases pointers.shaped x hx with old | new
    · rw [graph] at old
      rcases flows.shaped x old with old | new
      · rcases calls.shaped x old with old | new
        · exact first.shaped x old
        · exact new
      · exact new
    · exact new
  · rw [graph]
    exact flows.listed (calls.listed first.listed)

theorem controlPart_iff {cdg : CDG.Graph} {a b : NodePtr} :
    ControlPart M cdg a b ↔
      (∃ S ∈ M.blocks, ∃ D ∈ M.blocks, cdg.Connected (some S.id) (some D.id) ∧
        ∃ T, S.getTerminator = some T ∧ ∃ I ∈ D.insts, a = .inst T.id ∧ b = .inst I.id) ∨
      ∃ D ∈ M.blocks, cdg.Connected none (some D.id) ∧
        ∃ I ∈ D.insts, a = .entry D.parent ∧ b = .inst I.id := by
  constructor
  · rintro ⟨D, hD, pred, conn, I, hI, hb, source⟩
    cases pred with
    | none => exact Or.inr ⟨D, hD, conn, I, hI, source, hb⟩
    | some S =>
      obtain ⟨B, T, block, term, ha⟩ := source
      obtain ⟨hB, rfl⟩ := block_lookup.mp block
      exact Or.inl ⟨B, hB, D, hD, conn, T, term, I, hI, ha, hb⟩
  · rintro (⟨S, hS, D, hD, conn, T, term, I, hI, ha, hb⟩ | ⟨D, hD, conn, I, hI, ha, hb⟩)
    · exact ⟨D, hD, some S.id, conn, I, hI, hb, S, T, block_lookup.mpr ⟨hS, rfl⟩, term, ha⟩
    · exact ⟨D, hD, none, conn, I, hI, hb, ha⟩

theorem dependence_of_inserted {cdg : CDG.Graph} {a b : NodePtr}
    (edge : Inserted A M cdg a b) : Dependence A M cdg a b := by
  rcases edge with (control | callee) | call | flow | memory
  · rcases controlPart_iff.mp control with ⟨S, hS, D, hD, conn, T, term, I, hI, rfl, rfl⟩ |
      ⟨D, hD, conn, I, hI, rfl, rfl⟩
    · exact .control hS hD conn term hI
    · exact .entryControl hD conn hI
  · obtain ⟨F, hF, defined, rfl, rfl | ⟨f, hf, rfl⟩⟩ := callee
    · exact .result hF defined
    · exact .formal hF defined hf
  · obtain ⟨I, hI, F, call, ⟨rfl, rfl⟩ | (⟨rfl, v, hv, rfl⟩ |
      ⟨v, f, matched, rfl, rfl⟩) | ⟨rfl, rfl | rfl⟩⟩ := call
    · exact .call hI call
    · exact .actual hI call hv
    · exact .paramIn hI call matched
    · exact .returned hI call
    · exact .paramOut hI call
  · obtain ⟨F, hF, I, hI, ⟨v, hv, rfl, ⟨j, rfl, rfl⟩ | ⟨f, rfl, rfl⟩⟩ | ⟨isRet, rfl, rfl⟩ |
      ⟨isCall, rfl, rfl⟩⟩ := flow
    · exact .operand (mem_module_insts.mpr ⟨F, hF, hI⟩) hv
    · exact .argument (mem_module_insts.mpr ⟨F, hF, hI⟩) hv
    · exact .ret hF hI isRet
    · exact .callReturn (mem_module_insts.mpr ⟨F, hF, hI⟩) isCall
  · obtain ⟨d, ⟨S, hS, store⟩, L, hL, rfl⟩ := memory
    obtain ⟨inM, isLoad, used⟩ := mem_loadUsers.mp hL
    obtain ⟨isStore, v, pointer, hd, rfl⟩ := store
    exact .memory hS ⟨isStore, v, pointer, hd, rfl⟩ inM isLoad used

theorem inserted_of_dependence {cdg : CDG.Graph} {a b : NodePtr}
    (dep : Dependence A M cdg a b) : Inserted A M cdg a b := by
  cases dep with
  | control hS hD conn term hI =>
    exact Or.inl (Or.inl (controlPart_iff.mpr
      (Or.inl ⟨_, hS, _, hD, conn, _, term, _, hI, rfl, rfl⟩)))
  | entryControl hD conn hI =>
    exact Or.inl (Or.inl (controlPart_iff.mpr (Or.inr ⟨_, hD, conn, _, hI, rfl, rfl⟩)))
  | formal hF defined hf => exact Or.inl (Or.inr ⟨_, hF, defined, rfl, Or.inr ⟨_, hf, rfl⟩⟩)
  | result hF defined => exact Or.inl (Or.inr ⟨_, hF, defined, rfl, Or.inl rfl⟩)
  | call hI call => exact Or.inr (Or.inl ⟨_, hI, _, call, Or.inl ⟨rfl, rfl⟩⟩)
  | actual hI call hv =>
    exact Or.inr (Or.inl ⟨_, hI, _, call, Or.inr (Or.inl (Or.inl ⟨rfl, _, hv, rfl⟩))⟩)
  | paramIn hI call matched =>
    exact Or.inr (Or.inl ⟨_, hI, _, call, Or.inr (Or.inl (Or.inr ⟨_, _, matched, rfl, rfl⟩))⟩)
  | returned hI call =>
    exact Or.inr (Or.inl ⟨_, hI, _, call, Or.inr (Or.inr ⟨rfl, Or.inl rfl⟩)⟩)
  | paramOut hI call =>
    exact Or.inr (Or.inl ⟨_, hI, _, call, Or.inr (Or.inr ⟨rfl, Or.inr rfl⟩)⟩)
  | operand hI used =>
    obtain ⟨F, hF, hIF⟩ := mem_module_insts.mp hI
    exact Or.inr (Or.inr (Or.inl ⟨F, hF, _, hIF,
      Or.inl ⟨_, used, rfl, Or.inl ⟨_, rfl, rfl⟩⟩⟩))
  | argument hI used =>
    obtain ⟨F, hF, hIF⟩ := mem_module_insts.mp hI
    exact Or.inr (Or.inr (Or.inl ⟨F, hF, _, hIF,
      Or.inl ⟨_, used, rfl, Or.inr ⟨_, rfl, rfl⟩⟩⟩))
  | ret hF hI isRet =>
    exact Or.inr (Or.inr (Or.inl ⟨_, hF, _, hI, Or.inr (Or.inl ⟨isRet, rfl, rfl⟩)⟩))
  | callReturn hI isCall =>
    obtain ⟨F, hF, hIF⟩ := mem_module_insts.mp hI
    exact Or.inr (Or.inr (Or.inl ⟨F, hF, _, hIF, Or.inr (Or.inr ⟨isCall, rfl, rfl⟩)⟩))
  | memory hS store hL isLoad used =>
    exact Or.inr (Or.inr (Or.inr ⟨_, ⟨_, hS, store⟩, _, mem_loadUsers.mpr ⟨hL, isLoad, used⟩, rfl⟩))

/-- The finished graph connects exactly the dependences of the module. -/
theorem runOnModule_conn (run : runOnModule A M = some s) (a b : NodePtr) :
    s.Conn a b ↔ Dependence A M s.cdg a b :=
  ((runOnModule_built run).conn a b).trans ⟨dependence_of_inserted, inserted_of_dependence⟩

end WholeRun

theorem stepOne_cdg {A : Analyses} {M : Module} {F : Function} {s s' : SDG}
    (run : stepOne A M s F = some s') :
    (F.isDeclaration = true ∧ s' = s) ∨
      CDG.runOnFunction (A.pdt F.id) F s.cdg = some s'.cdg := by
  rcases stepOne_cases run with ⟨declared, same⟩ | ⟨defined, cdg, t, cdgRun, nodes, same⟩
  · exact Or.inl ⟨declared, same⟩
  · have control := foldlM_keeps (P := fun t : SDG => t.cdg = cdg)
      (fun n _ t t' one h => (controlNode_extends one).cdg.trans h) nodes rfl
    right
    rw [cdgRun, same, (calleeAux_extends defined t).cdg, control]

theorem no_blocks_of_declaration {F : Function} (declared : F.isDeclaration = true) :
    F.blocks = [] := by
  simpa [Function.isDeclaration] using declared

theorem reachesExit_of_stepOne {A : Analyses} {M : Module} {F : Function} {s s' : SDG}
    (correct : (A.pdt F.id).Correct F) (run : stepOne A M s F = some s') (b : BlockId) :
    ControlDependence.ReachesExit F.Edge b := by
  rcases stepOne_cdg run with ⟨declared, _⟩ | cdgRun
  · refine .exit fun c ⟨B, hB, _⟩ => ?_
    simp [no_blocks_of_declaration declared] at hB
  · exact CDG.reachesExit_of_run correct cdgRun b

section BlockGraph
variable {A : Analyses} {M : Module} {s : SDG}

theorem stepOne_controlEdges {F : Function} {done : List Function} {s s' : SDG}
    (correct : (A.pdt F.id).Correct F) (inside : F.SuccessorsLocal)
    (own : ∀ G ∈ done, ∀ B ∈ F.blocks, ∀ x, CDG.ControlEdge G x (some B.id) →
      CDG.ControlEdge F x (some B.id))
    (before : ∀ a b, s.cdg.Connected a b ↔ ∃ G ∈ done, CDG.ControlEdge G a b)
    (run : stepOne A M s F = some s') (a b : Option BlockId) :
    s'.cdg.Connected a b ↔ ∃ G ∈ done ++ [F], CDG.ControlEdge G a b := by
  simp only [List.mem_append, List.mem_singleton, or_and_right, exists_or, exists_eq_left]
  rw [← before]
  rcases stepOne_cdg run with ⟨declared, same⟩ | cdgRun
  · have nothing : ¬ CDG.ControlEdge F a b := by
      intro edge
      obtain ⟨B, hB, _⟩ := (CDG.controlEdge_inside inside
        (reachesExit_of_stepOne correct run) edge).1
      simp [no_blocks_of_declaration declared] at hB
    simp [same, nothing]
  · refine CDG.runOnFunction_connected correct inside (fun B hB x conn => ?_) cdgRun a b
    obtain ⟨G, hG, edge⟩ := (before _ _).mp conn
    exact own G hG B hB x edge

theorem controlEdge_own (verified : M.Verified) {F G : Function} (hF : F ∈ M.functions)
    (hG : G ∈ M.functions) (exits : ∀ b, ControlDependence.ReachesExit G.Edge b)
    {B : BasicBlock} (hB : B ∈ F.blocks) {x : Option BlockId}
    (edge : CDG.ControlEdge G x (some B.id)) : CDG.ControlEdge F x (some B.id) := by
  obtain ⟨C, hC, key⟩ := (CDG.controlEdge_inside (verified.successor_local G hG) exits edge).1
  have same : B = C := block_eq (mem_blocks.mpr ⟨F, hF, hB⟩)
    (mem_blocks.mpr ⟨G, hG, hC⟩) (Option.some.inj key)
  have eq : F = G := block_function_eq hF hG hB (same ▸ hC)
  exact eq ▸ edge

theorem stepsOne_controlEdges (correct : A.Correct M) (verified : M.Verified)
    (done : List Function) {todo : List Function} {s s' : SDG}
    (doneIn : ∀ G ∈ done, G ∈ M.functions) (todoIn : ∀ G ∈ todo, G ∈ M.functions)
    (exits : ∀ G ∈ done, ∀ b, ControlDependence.ReachesExit G.Edge b)
    (before : ∀ a b, s.cdg.Connected a b ↔ ∃ G ∈ done, CDG.ControlEdge G a b)
    (run : todo.foldlM (stepOne A M) s = some s') :
    (∀ a b, s'.cdg.Connected a b ↔ ∃ G ∈ done ++ todo, CDG.ControlEdge G a b) ∧
      ∀ G ∈ done ++ todo, ∀ b, ControlDependence.ReachesExit G.Edge b := by
  induction todo generalizing done s with
  | nil =>
    have same : s = s' := by simpa using run
    rw [List.append_nil, ← same]
    exact ⟨before, exits⟩
  | cons F todo ih =>
    rw [List.foldlM_cons] at run
    obtain ⟨t, first, rest⟩ := bind_some run
    have hF := todoIn F (List.mem_cons_self ..)
    have exitsF := reachesExit_of_stepOne (correct F hF) first
    have next := stepOne_controlEdges (correct F hF) (verified.successor_local F hF)
      (fun G hG B hB x edge => controlEdge_own verified hF (doneIn G hG) (exits G hG) hB edge)
      before first
    have split : done ++ F :: todo = done ++ [F] ++ todo := by simp
    rw [split]
    refine ih (done ++ [F]) ?_ (fun G hG => todoIn G (List.mem_cons_of_mem F hG)) ?_ next rest
    · intro G hG
      rcases List.mem_append.mp hG with early | last
      · exact doneIn G early
      · exact List.mem_singleton.mp last ▸ hF
    · intro G hG
      rcases List.mem_append.mp hG with early | last
      · exact exits G early
      · rw [List.mem_singleton.mp last]
        exact exitsF

theorem runOnModule_cdg (correct : A.Correct M) (verified : M.Verified)
    (run : runOnModule A M = some s) :
    (∀ a b, s.cdg.Connected a b ↔ ∃ G ∈ M.functions, CDG.ControlEdge G a b) ∧
      ∀ G ∈ M.functions, ∀ b, ControlDependence.ReachesExit G.Edge b := by
  obtain ⟨s1, s2, s3, s4, one, two, three, four, same⟩ := runOnModule_cases run
  have calls := (extends_foldlM (fun I _ s s' step => stepTwo_extends step) two).cdg
  have flows := (extends_foldlM (fun F _ s s' inner =>
    extends_foldlM (fun I _ s s' step => intraInst_extends step) inner) three).cdg
  have pointers := (generatePointerEdges_extends M s4).cdg
  have cdgEq : s.cdg = s1.cdg :=
    same.symm ▸ pointers.trans ((generateDefNodeMap_graph four).2.trans (flows.trans calls))
  rw [cdgEq]
  exact stepsOne_controlEdges correct verified [] (by simp) (fun _ hG => hG) (by simp)
    (fun a b => by simp [DirectedGraph.not_connected_empty]) one

end BlockGraph

end SDG
end ProgramSlicer
