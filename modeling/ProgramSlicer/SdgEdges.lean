import ProgramSlicer.SdgSteps

/-!
What `SDG::runOnModule` builds. `Dependence` lists the insertion sites of its
four steps; the stored graph connects exactly these pairs. Two sites may insert
for the same pair, but then with attributes no slicer mask tells apart, because
the attribute is fixed by the kinds of the two nodes up to control or flow.
-/
namespace ProgramSlicer
open FoldRules

inductive EdgeKind where
  | neutral | call | paramIn | paramOut
  deriving DecidableEq, Repr

def EdgeKind.attrs : EdgeKind → List Nat
  | .neutral => [EdgeAttr.control, EdgeAttr.flow]
  | .call => [EdgeAttr.call]
  | .paramIn => [EdgeAttr.paramIn]
  | .paramOut => [EdgeAttr.paramOut]

def edgeKind : NodePtr → NodePtr → EdgeKind
  | .inst _, .entry _ => .call
  | .callerInput _ _, .calleeInput _ => .paramIn
  | .calleeOutput _, .callerOutput _ _ => .paramOut
  | _, _ => .neutral

def Shaped (x : (NodePtr × NodePtr) × Option SDGEdge) : Prop :=
  ∃ k ∈ (edgeKind x.1.1 x.1.2).attrs, x.2 = some ⟨k⟩

namespace SDG

abbrev Conn (s : SDG) (a b : NodePtr) : Prop := s.graph.Connected a b

/-- A part of the construction that adds the pairs of `E` and nothing else. -/
structure Extends (E : NodePtr → NodePtr → Prop) (s s' : SDG) : Prop where
  cdg : s'.cdg = s.cdg
  defs : s'.defNodeMap = s.defNodeMap
  conn : ∀ a b, s'.Conn a b ↔ s.Conn a b ∨ E a b
  shaped : ∀ x ∈ s'.graph.edges, x ∈ s.graph.edges ∨ Shaped x
  listed : s.graph.NodesListed → s'.graph.NodesListed

theorem extends_of_same {s s' : SDG} (graph : s'.graph = s.graph) (cdg : s'.cdg = s.cdg)
    (defs : s'.defNodeMap = s.defNodeMap) : Extends (fun _ _ => False) s s' where
  cdg := cdg
  defs := defs
  conn a b := by unfold Conn; rw [graph]; simp
  shaped x hx := Or.inl (graph ▸ hx)
  listed h := graph ▸ h

theorem extends_link {s t : SDG} {src dst : NodePtr} {k : Nat} (graph : t.graph = s.graph)
    (cdg : t.cdg = s.cdg) (defs : t.defNodeMap = s.defNodeMap)
    (attr : k ∈ (edgeKind src dst).attrs) :
    Extends (fun a b => a = src ∧ b = dst) s (t.link src dst k) where
  cdg := cdg
  defs := defs
  conn a b := by
    unfold Conn link
    rw [DirectedGraph.connected_insert, graph, or_comm]
  shaped x hx := by
    rcases DirectedGraph.mem_insert.mp hx with new | ⟨old, _⟩
    · exact Or.inr (new ▸ ⟨k, attr, rfl⟩)
    · exact Or.inl (graph ▸ old)
  listed h := by
    unfold link
    apply DirectedGraph.nodesListed_insert
    rwa [graph]

theorem extends_trans {E E' : NodePtr → NodePtr → Prop} {s t u : SDG} (first : Extends E s t)
    (second : Extends E' t u) : Extends (fun a b => E a b ∨ E' a b) s u where
  cdg := second.cdg.trans first.cdg
  defs := second.defs.trans first.defs
  conn a b := by rw [second.conn, first.conn, or_assoc]
  shaped x hx := (second.shaped x hx).elim (first.shaped x) Or.inr
  listed h := second.listed (first.listed h)

theorem extends_congr {E E' : NodePtr → NodePtr → Prop} {s t : SDG} (h : Extends E s t)
    (same : ∀ a b, E a b ↔ E' a b) : Extends E' s t where
  cdg := h.cdg
  defs := h.defs
  conn a b := by rw [h.conn, same]
  shaped := h.shaped
  listed := h.listed

theorem extends_foldlM {α : Type} {f : SDG → α → Option SDG}
    {E : α → NodePtr → NodePtr → Prop} {l : List α}
    (step : ∀ x ∈ l, ∀ s s', f s x = some s' → Extends (E x) s s') {s s' : SDG}
    (run : l.foldlM f s = some s') : Extends (fun a b => ∃ x ∈ l, E x a b) s s' where
  cdg := foldlM_keeps (P := fun t : SDG => t.cdg = s.cdg)
    (fun x hx t t' one h => (step x hx t t' one).cdg.trans h) run rfl
  defs := foldlM_keeps (P := fun t : SDG => t.defNodeMap = s.defNodeMap)
    (fun x hx t t' one h => (step x hx t t' one).defs.trans h) run rfl
  conn a b := foldlM_adds (fun x hx t t' one => (step x hx t t' one).conn a b) run
  shaped := foldlM_keeps (P := fun t : SDG => ∀ x ∈ t.graph.edges, x ∈ s.graph.edges ∨ Shaped x)
    (fun x hx t t' one h y hy => ((step x hx t t' one).shaped y hy).elim (h y) Or.inr)
    run (fun _ old => Or.inl old)
  listed := foldlM_keeps (P := fun t : SDG => t.graph.NodesListed)
    (fun x hx t t' one h => (step x hx t t' one).listed h) run

theorem extends_foldl {α : Type} {f : SDG → α → SDG} {E : α → NodePtr → NodePtr → Prop}
    {l : List α} (step : ∀ x ∈ l, ∀ s, Extends (E x) s (f s x)) (s : SDG) :
    Extends (fun a b => ∃ x ∈ l, E x a b) s (l.foldl f s) where
  cdg := foldl_keeps (P := fun t : SDG => t.cdg = s.cdg)
    (fun x hx t h => (step x hx t).cdg.trans h) rfl
  defs := foldl_keeps (P := fun t : SDG => t.defNodeMap = s.defNodeMap)
    (fun x hx t h => (step x hx t).defs.trans h) rfl
  conn a b := foldl_adds (R := fun t : SDG => t.Conn a b)
    (fun x hx t => (step x hx t).conn a b) s
  shaped := foldl_keeps (P := fun t : SDG => ∀ x ∈ t.graph.edges, x ∈ s.graph.edges ∨ Shaped x)
    (fun x hx t h y hy => ((step x hx t).shaped y hy).elim (h y) Or.inr) (fun _ old => Or.inl old)
  listed := foldl_keeps (P := fun t : SDG => t.graph.NodesListed)
    (fun x hx t h => (step x hx t).listed h)

def PredEdge (M : Module) (D : BasicBlock) (pred : Option BlockId) (a b : NodePtr) : Prop :=
  ∃ I ∈ D.insts, b = .inst I.id ∧
    match pred with
    | some S => ∃ B T, M.block? S = some B ∧ B.getTerminator = some T ∧ a = .inst T.id
    | none => a = .entry D.parent

theorem controlBlock_extends (src : NodePtr) (attr : ∀ i,
      EdgeAttr.control ∈ (edgeKind src (.inst i)).attrs) (D : BasicBlock) (s : SDG) :
    Extends (fun a b => ∃ I ∈ D.insts, a = src ∧ b = .inst I.id) s (controlBlock src D s) :=
  extends_foldl (fun I _ s => extends_link (s := s) (t := s.insertInst I.id) rfl rfl rfl (attr I.id)) s

theorem extends_after {E : NodePtr → NodePtr → Prop} {s t u : SDG} (rest : Extends E t u)
    (graph : t.graph = s.graph) (cdg : t.cdg = s.cdg) (defs : t.defNodeMap = s.defNodeMap) :
    Extends E s u :=
  extends_congr (extends_trans (extends_of_same graph cdg defs) rest) (fun a b => by simp)

theorem controlPred_extends {M : Module} {D : BasicBlock} {s s' : SDG} {pred : Option BlockId}
    (run : controlPred M D s pred = some s') : Extends (PredEdge M D pred) s s' := by
  cases pred with
  | none =>
    rw [controlPred_entry run]
    refine extends_congr (extends_after (controlBlock_extends (.entry D.parent)
      (fun i => by simp [edgeKind, EdgeKind.attrs]) D _) rfl rfl rfl) ?_
    intro a b
    unfold PredEdge
    tauto
  | some S =>
    obtain ⟨B, T, block, term, rfl⟩ := controlPred_block run
    refine extends_congr (extends_after (controlBlock_extends (.inst T.id)
      (fun i => by simp [edgeKind, EdgeKind.attrs]) D _) rfl rfl rfl) ?_
    intro a b
    simp only [PredEdge, block, Option.some.injEq, ↓existsAndEq, true_and, term]
    tauto

/-- The control edges that a block graph gives rise to. -/
def ControlPart (M : Module) (cdg : CDG.Graph) (a b : NodePtr) : Prop :=
  ∃ D ∈ M.blocks, ∃ pred, cdg.Connected pred (some D.id) ∧ PredEdge M D pred a b

theorem controlNode_extends {M : Module} {cdg : CDG.Graph} {s s' : SDG} {n : Option BlockId}
    (run : controlNode M cdg s n = some s') :
    Extends (fun a b => ∃ D ∈ M.blocks, n = some D.id ∧
      ∃ pred, cdg.Connected pred (some D.id) ∧ PredEdge M D pred a b) s s' := by
  rcases controlNode_cases run with ⟨rfl, rfl⟩ | ⟨D, hD, rfl, preds⟩
  · exact extends_congr (extends_of_same rfl rfl rfl) (fun a b => by simp)
  · refine extends_congr (extends_foldlM (fun pred _ s s' one => controlPred_extends one) preds) ?_
    intro a b
    constructor
    · intro ⟨pred, hpred, edge⟩
      exact ⟨D, hD, rfl, pred, DirectedGraph.pred_keys.mp hpred, edge⟩
    · intro ⟨C, hC, key, pred, hpred, edge⟩
      have eq : D = C := block_eq hD hC (Option.some.inj key)
      subst eq
      exact ⟨pred, DirectedGraph.pred_keys.mpr hpred, edge⟩

theorem controlNodes_extends {M : Module} {cdg : CDG.Graph} (listed : cdg.NodesListed) {s s' : SDG}
    (run : cdg.getNodeSet.foldlM (controlNode M cdg) s = some s') :
    Extends (ControlPart M cdg) s s' := by
  refine extends_congr (extends_foldlM (fun n _ s s' one => controlNode_extends one) run) ?_
  intro a b
  constructor
  · intro ⟨n, _, D, hD, _, edge⟩
    exact ⟨D, hD, edge⟩
  · intro ⟨D, hD, pred, conn, edge⟩
    exact ⟨some D.id, (listed _ _ conn).2, D, hD, rfl, pred, conn, edge⟩

def CalleeEdge (F : Function) (a b : NodePtr) : Prop :=
  F.isDeclaration = false ∧ a = .entry F.id ∧
    (b = .calleeOutput F.id ∨ ∃ arg ∈ F.args, b = .calleeInput arg)

theorem calleeInput_extends (f : FuncId) (s : SDG) (arg : ArgId) :
    Extends (fun a b => a = .entry f ∧ b = .calleeInput arg) s (calleeInput f s arg) :=
  extends_link rfl rfl rfl (by simp [edgeKind, EdgeKind.attrs])

theorem calleeAux_extends {F : Function} (defined : F.isDeclaration = false) (s : SDG) :
    Extends (CalleeEdge F) s (calleeAux F s) := by
  have inputs := extends_foldl (l := F.args) (fun arg _ s => calleeInput_extends F.id s arg)
    { s with entryNodeMap := s.entryNodeMap.index F.id }
  have output : Extends (fun a b => a = .entry F.id ∧ b = .calleeOutput F.id)
      (F.args.foldl (calleeInput F.id) { s with entryNodeMap := s.entryNodeMap.index F.id })
      (calleeAux F s) := extends_link rfl rfl rfl (by simp [edgeKind, EdgeKind.attrs])
  refine extends_congr (extends_trans (extends_after inputs rfl rfl rfl) output) ?_
  intro a b
  simp only [CalleeEdge, defined, true_and]
  constructor
  · rintro (⟨arg, harg, ha, hb⟩ | ⟨ha, hb⟩)
    · exact ⟨ha, Or.inr ⟨arg, harg, hb⟩⟩
    · exact ⟨ha, Or.inl hb⟩
  · rintro ⟨ha, hb | ⟨arg, harg, hb⟩⟩
    · exact Or.inr ⟨ha, hb⟩
    · exact Or.inl ⟨arg, harg, ha, hb⟩

theorem callerInput_extends (ci : InstId) (v : Value) (f : ArgId) (s : SDG) :
    Extends (fun a b => (a = .inst ci ∧ b = .callerInput ci v) ∨
      (a = .callerInput ci v ∧ b = .calleeInput f)) s (callerInput ci v f s) := by
  have actual : Extends (fun a b => a = .inst ci ∧ b = .callerInput ci v) s
      (SDG.link { s with callerInputNodeMap :=
        s.callerInputNodeMap.insert (ci, v) ⟨.callerAux, some v⟩ }
        (.inst ci) (.callerInput ci v) EdgeAttr.control) :=
    extends_link rfl rfl rfl (by simp [edgeKind, EdgeKind.attrs])
  apply extends_trans actual
  exact extends_link rfl rfl rfl (by simp [edgeKind, EdgeKind.attrs])

theorem callerInputs_extends {ci : InstId} {vs : List Value} {formals : List ArgId} {s s' : SDG}
    (run : callerInputs ci vs formals s = some s') :
    Extends (fun a b => (a = .inst ci ∧ ∃ v ∈ vs, b = .callerInput ci v) ∨
      ∃ v f, (v, f) ∈ vs.zip formals ∧ a = .callerInput ci v ∧ b = .calleeInput f) s s' := by
  induction vs generalizing formals s with
  | nil =>
    simp only [callerInputs, Option.some.injEq] at run
    subst run
    exact extends_congr (extends_of_same rfl rfl rfl) (fun a b => by simp)
  | cons v vs ih =>
    cases formals with
    | nil => simp [callerInputs] at run
    | cons f formals =>
      refine extends_congr (extends_trans (callerInput_extends ci v f s) (ih run)) ?_
      intro a b
      simp only [List.mem_cons, List.zip_cons_cons, Prod.mk.injEq]
      constructor
      · rintro ((⟨ha, hb⟩ | ⟨ha, hb⟩) | (⟨ha, w, hw, hb⟩ | ⟨w, g, hw, ha, hb⟩))
        · exact Or.inl ⟨ha, v, Or.inl rfl, hb⟩
        · exact Or.inr ⟨v, f, Or.inl ⟨rfl, rfl⟩, ha, hb⟩
        · exact Or.inl ⟨ha, w, Or.inr hw, hb⟩
        · exact Or.inr ⟨w, g, Or.inr hw, ha, hb⟩
      · rintro (⟨ha, w, rfl | hw, hb⟩ | ⟨w, g, ⟨rfl, rfl⟩ | hw, ha, hb⟩)
        · exact Or.inl (Or.inl ⟨ha, hb⟩)
        · exact Or.inr (Or.inl ⟨ha, w, hw, hb⟩)
        · exact Or.inl (Or.inr ⟨ha, hb⟩)
        · exact Or.inr (Or.inr ⟨w, g, hw, ha, hb⟩)

theorem callerOutput_extends (ci : InstId) (f : FuncId) (s : SDG) :
    Extends (fun a b => b = .callerOutput ci (.inst ci) ∧ (a = .inst ci ∨ a = .calleeOutput f)) s
      (callerOutput ci f s) := by
  have control : Extends (fun a b => a = .inst ci ∧ b = .callerOutput ci (.inst ci)) s
      (SDG.link { s with callerOutputNodeMap :=
        s.callerOutputNodeMap.insert (ci, .inst ci) ⟨.callerAux, some (.inst ci)⟩ }
        (.inst ci) (.callerOutput ci (.inst ci)) EdgeAttr.control) :=
    extends_link rfl rfl rfl (by simp [edgeKind, EdgeKind.attrs])
  have both : Extends (fun a b => (a = .inst ci ∧ b = .callerOutput ci (.inst ci)) ∨
      (a = .calleeOutput f ∧ b = .callerOutput ci (.inst ci))) s (callerOutput ci f s) := by
    apply extends_trans control
    exact extends_link rfl rfl rfl (by simp [edgeKind, EdgeKind.attrs])
  refine extends_congr both fun a b => ?_
  tauto

def CallEdge (I : Instruction) (F : Function) (a b : NodePtr) : Prop :=
  (a = .inst I.id ∧ b = .entry F.id) ∨
  ((a = .inst I.id ∧ ∃ v ∈ I.argOperands, b = .callerInput I.id v) ∨
    ∃ v f, (v, f) ∈ I.argOperands.zip F.args ∧ a = .callerInput I.id v ∧ b = .calleeInput f) ∨
  (b = .callerOutput I.id (.inst I.id) ∧ (a = .inst I.id ∨ a = .calleeOutput F.id))

theorem connectCall_extends {I : Instruction} {F : Function} {s s' : SDG}
    (run : connectCall I F s = some s') : Extends (CallEdge I F) s s' := by
  obtain ⟨_, _, t, inputs, rfl⟩ := connectCall_cases run
  refine extends_trans ?_ (extends_trans (callerInputs_extends inputs)
    (callerOutput_extends I.id F.id t))
  exact extends_link rfl rfl rfl (by simp [edgeKind, EdgeKind.attrs])

theorem stepTwo_extends {M : Module} {I : Instruction} {s s' : SDG}
    (run : stepTwo M s I = some s') :
    Extends (fun a b => ∃ F, CallTo M I F ∧ CallEdge I F a b) s s' := by
  rcases stepTwo_cases run with ⟨rfl, none⟩ | ⟨F, call, connected⟩
  · refine extends_congr (extends_of_same rfl rfl rfl) (fun a b => ?_)
    constructor
    · intro no
      exact no.elim
    · intro ⟨F, call, _⟩
      exact none F call
  · refine extends_congr (connectCall_extends connected) (fun a b => ?_)
    constructor
    · intro edge
      exact ⟨F, call, edge⟩
    · intro ⟨G, other, edge⟩
      exact callTo_unique other call ▸ edge

/-- Flow edges into an instruction from what its operands name. -/
def OperandEdge (i : InstId) (operand : Value) (a b : NodePtr) : Prop :=
  b = .inst i ∧ ((∃ j, operand = .inst j ∧ a = .inst j) ∨
    ∃ f, operand = .arg f ∧ a = .calleeInput f)

def FlowEdge (f : FuncId) (I : Instruction) (a b : NodePtr) : Prop :=
  (∃ operand ∈ I.operands, OperandEdge I.id operand a b) ∨
  (I.opcode = .ret ∧ a = .inst I.id ∧ b = .calleeOutput f) ∨
  (I.opcode = .call ∧ a = .callerOutput I.id (.inst I.id) ∧ b = .inst I.id)

theorem defUse_extends {i : InstId} {operand : Value} {s s' : SDG}
    (run : defUse i s operand = some s') : Extends (OperandEdge i operand) s s' := by
  rcases defUse_cases run with ⟨j, rfl, _, rfl⟩ | ⟨f, rfl, _, rfl⟩ | ⟨notInst, notArg, rfl⟩
  · refine extends_congr (extends_link (s := s) rfl rfl rfl ?_) ?_
    · simp [edgeKind, EdgeKind.attrs]
    · simp [OperandEdge, and_comm]
  · refine extends_congr (extends_link (s := s) rfl rfl rfl ?_) ?_
    · simp [edgeKind, EdgeKind.attrs]
    · simp [OperandEdge, and_comm]
  · refine extends_congr (extends_of_same rfl rfl rfl) ?_
    intro a b
    simp only [OperandEdge, false_iff]
    rintro ⟨_, ⟨j, same, _⟩ | ⟨f, same, _⟩⟩
    · exact notInst j same
    · exact notArg f same

theorem returnFlow_extends (f : FuncId) (I : Instruction) (s : SDG) :
    Extends (fun a b => I.opcode = .ret ∧ a = .inst I.id ∧ b = .calleeOutput f) s
      (returnFlow f I s) := by
  unfold returnFlow
  split
  · rename_i isRet
    simp only [isRet, true_and]
    exact extends_link rfl rfl rfl (by simp [edgeKind, EdgeKind.attrs])
  · rename_i notRet
    simp only [notRet, false_and]
    exact extends_of_same rfl rfl rfl

theorem callReturnFlow_extends (I : Instruction) (s : SDG) :
    Extends (fun a b => I.opcode = .call ∧ a = .callerOutput I.id (.inst I.id) ∧ b = .inst I.id) s
      (callReturnFlow I s) := by
  unfold callReturnFlow
  split
  · rename_i isCall
    simp only [isCall, true_and]
    exact extends_link rfl rfl rfl (by simp [edgeKind, EdgeKind.attrs])
  · rename_i notCall
    simp only [notCall, false_and]
    exact extends_of_same rfl rfl rfl

theorem intraInst_extends {f : FuncId} {I : Instruction} {s s' : SDG}
    (run : intraInst f s I = some s') : Extends (FlowEdge f I) s s' := by
  obtain ⟨_, t, uses, rfl⟩ := intraInst_cases run
  exact extends_trans (extends_foldlM (fun v _ s s' one => defUse_extends one) uses)
    (extends_trans (returnFlow_extends f I t) (callReturnFlow_extends I _))

def InDef (m : List (InstId × List NodePtr)) (i : InstId) (node : NodePtr) : Prop :=
  ∃ nodes, (i, nodes) ∈ m ∧ node ∈ nodes

theorem inDef_recordDef {inst i : InstId} {node n : NodePtr} {m : List (InstId × List NodePtr)} :
    InDef (recordDef inst node m) i n ↔ InDef m i n ∨ (i = inst ∧ n = node) := by
  induction m with
  | nil => simp [InDef, recordDef, and_comm]
  | cons entry m ih =>
    obtain ⟨j, nodes⟩ := entry
    unfold recordDef
    split
    · rename_i same
      subst same
      simp only [InDef, List.mem_cons, Prod.mk.injEq]
      constructor
      · rintro ⟨ns, ⟨rfl, rfl⟩ | later, hn⟩
        · rcases List.mem_insert_iff.mp hn with rfl | old
          · exact Or.inr ⟨rfl, rfl⟩
          · exact Or.inl ⟨nodes, Or.inl ⟨rfl, rfl⟩, old⟩
        · exact Or.inl ⟨ns, Or.inr later, hn⟩
      · rintro (⟨ns, ⟨rfl, rfl⟩ | later, hn⟩ | ⟨rfl, rfl⟩)
        · exact ⟨_, Or.inl ⟨rfl, rfl⟩, List.mem_insert_of_mem hn⟩
        · exact ⟨ns, Or.inr later, hn⟩
        · exact ⟨_, Or.inl ⟨rfl, rfl⟩, List.mem_insert_self⟩
    · have tail : ∀ m', InDef ((j, nodes) :: m') i n ↔ (i = j ∧ n ∈ nodes) ∨ InDef m' i n := by
        intro m'
        simp only [InDef, List.mem_cons, Prod.mk.injEq, or_and_right, exists_or]
        grind
      rw [tail, tail, ih, or_assoc]

end SDG
end ProgramSlicer
