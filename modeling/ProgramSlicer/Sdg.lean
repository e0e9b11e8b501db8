import ProgramSlicer.Cdg

/-!
`SDG::runOnModule`. An `SDGNode *` is the address of an entry of one of the node
maps, so a node of the graph is that map and key. `none` stands for a run that
does not come through: a failed assertion or a NULL dereference.
-/
namespace ProgramSlicer

namespace EdgeAttr
def control : Nat := 1
def flow : Nat := 2
def call : Nat := 4
def paramIn : Nat := 8
def paramOut : Nat := 16
end EdgeAttr

structure SDGEdge where
  attr : Nat := 0
  deriving DecidableEq, Repr

def SDGEdge.ifMask (edge : SDGEdge) (mask : Nat) : Bool := edge.attr &&& mask != 0

inductive NodeAttr where
  | instruction | entry | callerAux | calleeAux | SIZE
  deriving DecidableEq, Repr

/-- What a node map holds; the default constructor gives `SIZE` and NULL. -/
structure SDGNode where
  attr : NodeAttr := .SIZE
  value : Option Value := none
  deriving DecidableEq, Repr

inductive NodePtr where
  | inst (i : InstId)
  | entry (f : FuncId)
  | calleeInput (a : ArgId)
  | callerInput (ci : InstId) (v : Value)
  | calleeOutput (f : FuncId)
  | callerOutput (ci : InstId) (v : Value)
  deriving DecidableEq, Repr, Inhabited

abbrev NodeMap (K : Type) := List (K × SDGNode)

namespace NodeMap
variable {K : Type} [DecidableEq K]

def find (m : NodeMap K) (k : K) : Option SDGNode := (List.find? (·.1 = k) m).map Prod.snd

/-- `std::map::insert`: an entry that exists is kept. -/
def insert (m : NodeMap K) (k : K) (node : SDGNode) : NodeMap K :=
  if (m.find k).isSome then m else (k, node) :: m

/-- The effect of `operator[]`: a missing entry is default-constructed. -/
def index (m : NodeMap K) (k : K) : NodeMap K := m.insert k {}
end NodeMap

/-- Results of the analyses that `runOnModule` asks LLVM for. -/
structure Analyses where
  pdt : FuncId → PostDominatorTree
  /-- The pointers of the alias set that the tracker returns for a pointer. -/
  aliasSet : Value → List Value

/-- The post-dominator trees are those of the module's functions. -/
def Analyses.Correct (A : Analyses) (M : Module) : Prop :=
  ∀ F ∈ M.functions, (A.pdt F.id).Correct F

structure SDG where
  cdg : CDG.Graph := {}
  graph : DirectedGraph NodePtr SDGEdge := {}
  instNodeMap : NodeMap InstId := []
  entryNodeMap : NodeMap FuncId := []
  calleeInputNodeMap : NodeMap ArgId := []
  callerInputNodeMap : NodeMap (InstId × Value) := []
  calleeOutputNodeMap : NodeMap FuncId := []
  callerOutputNodeMap : NodeMap (InstId × Value) := []
  defNodeMap : List (InstId × List NodePtr) := []
  deriving DecidableEq

namespace SDG

def link (s : SDG) (src dst : NodePtr) (attr : Nat) : SDG :=
  { s with graph := s.graph.insert src dst (some ⟨attr⟩) }

def insertInst (s : SDG) (i : InstId) : SDG :=
  { s with instNodeMap := s.instNodeMap.insert i ⟨.instruction, some (.inst i)⟩ }

/-- Step 1, innermost loop: the instructions of D below one source. -/
def controlBlock (src : NodePtr) (D : BasicBlock) (s : SDG) : SDG :=
  D.insts.foldl (fun s I => (s.insertInst I.id).link src (.inst I.id) EdgeAttr.control) s

def controlPred (M : Module) (D : BasicBlock) (s : SDG) : Option BlockId → Option SDG
  | some S => do
      let B ← M.block? S
      let I ← B.getTerminator
      return controlBlock (.inst I.id) D (s.insertInst I.id)
  | none =>
      let F := D.parent
      some (controlBlock (.entry F) D
        { s with entryNodeMap := s.entryNodeMap.insert F ⟨.entry, some (.func F)⟩ })

def controlNode (M : Module) (bbGraph : CDG.Graph) (s : SDG) : Option BlockId → Option SDG
  | none => some s
  | some b => do
      let D ← M.block? b
      ((bbGraph.getPredSet (some b)).map Prod.fst).foldlM (controlPred M D) s

def calleeInput (f : FuncId) (s : SDG) (a : ArgId) : SDG :=
  { s with calleeInputNodeMap :=
      s.calleeInputNodeMap.insert a ⟨.calleeAux, some (.arg a)⟩ }.link
    (.entry f) (.calleeInput a) EdgeAttr.control

def calleeAux (F : Function) (s : SDG) : SDG :=
  let s := { s with entryNodeMap := s.entryNodeMap.index F.id }
  let s := F.args.foldl (calleeInput F.id) s
  { s with calleeOutputNodeMap :=
      s.calleeOutputNodeMap.insert F.id ⟨.calleeAux, some (.func F.id)⟩ }.link
    (.entry F.id) (.calleeOutput F.id) EdgeAttr.control

def stepOne (A : Analyses) (M : Module) (s : SDG) (F : Function) : Option SDG :=
  if F.isDeclaration then some s else do
    let cdg ← CDG.runOnFunction (A.pdt F.id) F s.cdg
    let s ← cdg.getNodeSet.foldlM (controlNode M cdg) { s with cdg }
    return calleeAux F s

def callerInput (ci : InstId) (v : Value) (a : ArgId) (s : SDG) : SDG :=
  let s := { s with callerInputNodeMap :=
    s.callerInputNodeMap.insert (ci, v) ⟨.callerAux, some v⟩ }
  let s := s.link (.inst ci) (.callerInput ci v) EdgeAttr.control
  let s := { s with calleeInputNodeMap := s.calleeInputNodeMap.index a }
  s.link (.callerInput ci v) (.calleeInput a) EdgeAttr.paramIn

/-- Step 2.2: actuals and formals in parallel; running out of formals fails an assertion. -/
def callerInputs (ci : InstId) : List Value → List ArgId → SDG → Option SDG
  | [], _, s => some s
  | _ :: _, [], _ => none
  | v :: vs, a :: as, s => callerInputs ci vs as (callerInput ci v a s)

def callerOutput (ci : InstId) (f : FuncId) (s : SDG) : SDG :=
  let s := { s with callerOutputNodeMap :=
    s.callerOutputNodeMap.insert (ci, .inst ci) ⟨.callerAux, some (.inst ci)⟩ }
  let s := s.link (.inst ci) (.callerOutput ci (.inst ci)) EdgeAttr.control
  let s := { s with calleeOutputNodeMap := s.calleeOutputNodeMap.index f }
  s.link (.calleeOutput f) (.callerOutput ci (.inst ci)) EdgeAttr.paramOut

def hasValue {K : Type} [DecidableEq K] (m : NodeMap K) (k : K) : Bool :=
  ((m.find k).bind SDGNode.value).isSome

/-- Steps 2.1 and 2.2 for a call of a defined function. -/
def connectCall (I : Instruction) (CF : Function) (s : SDG) : Option SDG :=
  let s := { s with
    instNodeMap := s.instNodeMap.index I.id
    entryNodeMap := s.entryNodeMap.index CF.id }
  if hasValue s.instNodeMap I.id && hasValue s.entryNodeMap CF.id then do
    let s ← callerInputs I.id I.argOperands CF.args
      (s.link (.inst I.id) (.entry CF.id) EdgeAttr.call)
    return callerOutput I.id CF.id s
  else none

def stepTwo (M : Module) (s : SDG) (I : Instruction) : Option SDG :=
  if I.opcode = .call then do
    let f ← I.getCalledFunction
    let CF ← M.function? f
    if CF.isDeclaration then some s else connectCall I CF s
  else some s

def defUse (i : InstId) (s : SDG) : Value → Option SDG
  | .inst j => if (s.instNodeMap.find j).isSome then
      some (s.link (.inst j) (.inst i) EdgeAttr.flow) else none
  | .arg a => if (s.calleeInputNodeMap.find a).isSome then
      some (s.link (.calleeInput a) (.inst i) EdgeAttr.flow) else none
  | _ => some s

def returnFlow (f : FuncId) (I : Instruction) (s : SDG) : SDG :=
  if I.opcode = .ret then
    { s with calleeOutputNodeMap := s.calleeOutputNodeMap.index f }.link
      (.inst I.id) (.calleeOutput f) EdgeAttr.flow
  else s

def callReturnFlow (I : Instruction) (s : SDG) : SDG :=
  if I.opcode = .call then
    { s with callerOutputNodeMap := s.callerOutputNodeMap.index (I.id, .inst I.id) }.link
      (.callerOutput I.id (.inst I.id)) (.inst I.id) EdgeAttr.flow
  else s

def intraInst (f : FuncId) (s : SDG) (I : Instruction) : Option SDG :=
  if (s.instNodeMap.find I.id).isSome then do
    let s ← I.operands.foldlM (defUse I.id) s
    return callReturnFlow I (returnFlow f I s)
  else none

def generateIntraDDG (s : SDG) (F : Function) : Option SDG := F.insts.foldlM (intraInst F.id) s

def recordDef (inst : InstId) (node : NodePtr) :
    List (InstId × List NodePtr) → List (InstId × List NodePtr)
  | [] => [(inst, [node])]
  | (i, nodes) :: m =>
      if i = inst then (i, nodes.insert node) :: m else (i, nodes) :: recordDef inst node m

/-- One pointer of the alias set; only instructions pass the assertion. -/
def recordPointer (store : InstId) (s : SDG) : Value → Option SDG
  | .inst j => some { s with defNodeMap := recordDef j (.inst store) s.defNodeMap }
  | _ => none

def recordStore (A : Analyses) (s : SDG) (I : Instruction) : Option SDG :=
  if I.opcode = .store then do
    let v ← I.storePointer
    (A.aliasSet v).foldlM (recordPointer I.id) s
  else some s

def generateDefNodeMap (A : Analyses) (M : Module) (s : SDG) : Option SDG :=
  M.insts.foldlM (recordStore A) s

def loadUsers (M : Module) (defInst : InstId) : List Instruction :=
  M.insts.filter fun I => I.opcode = .load && .inst defInst ∈ I.operands

def pointerEdge (src : NodePtr) (s : SDG) (L : Instruction) : SDG :=
  { s with instNodeMap := s.instNodeMap.index L.id }.link src (.inst L.id) EdgeAttr.flow

def generatePointerEdges (M : Module) (s : SDG) : SDG :=
  s.defNodeMap.foldl (fun s it =>
    it.2.foldl (fun s src => (loadUsers M it.1).foldl (pointerEdge src) s) s) s

def runOnModule (A : Analyses) (M : Module) : Option SDG := do
  let s ← M.functions.foldlM (stepOne A M) {}
  let s ← M.insts.foldlM (stepTwo M) s
  let s ← M.functions.foldlM generateIntraDDG s
  let s ← generateDefNodeMap A M s
  return generatePointerEdges M s

end SDG
end ProgramSlicer
