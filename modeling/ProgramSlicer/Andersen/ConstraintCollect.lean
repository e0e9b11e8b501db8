import Mathlib.Logic.Function.Basic
import ProgramSlicer.Andersen.NodeFactory
import ProgramSlicer.Andersen.PointerProgram

/-!
`Andersen::collectConstraints`: the nodes that stand for a module's pointers and
objects, and the constraints of its globals and instructions. Nothing is merged
yet, so of the node factory only the number of nodes and the maps are kept.
`none` is a failed assertion or `llvm_unreachable`.
-/
namespace ProgramSlicer.Andersen
open AndersNodeFactory

structure NodeMaps where
  numNodes : Nat
  valueNodeMap : Entity → Option NodeIndex
  objNodeMap : Entity → Option NodeIndex
  returnMap : FuncId → Option NodeIndex
  varargMap : FuncId → Option NodeIndex

namespace NodeMaps

def start : NodeMaps := ⟨4, fun _ => none, fun _ => none, fun _ => none, fun _ => none⟩

def createValueNode (N : NodeMaps) (v : Entity) : Option (NodeIndex × NodeMaps) :=
  if (N.valueNodeMap v).isSome then none
  else some (N.numNodes, { N with
    numNodes := N.numNodes + 1
    valueNodeMap := Function.update N.valueNodeMap v (some N.numNodes) })

def createObjectNode (N : NodeMaps) (v : Entity) : Option (NodeIndex × NodeMaps) :=
  if (N.objNodeMap v).isSome then none
  else some (N.numNodes, { N with
    numNodes := N.numNodes + 1
    objNodeMap := Function.update N.objNodeMap v (some N.numNodes) })

def createReturnNode (N : NodeMaps) (f : FuncId) : Option NodeMaps :=
  if (N.returnMap f).isSome then none
  else some { N with
    numNodes := N.numNodes + 1
    returnMap := Function.update N.returnMap f (some N.numNodes) }

def createVarargNode (N : NodeMaps) (f : FuncId) : Option NodeMaps :=
  if (N.varargMap f).isSome then none
  else some { N with
    numNodes := N.numNodes + 1
    varargMap := Function.update N.varargMap f (some N.numNodes) }

def getValueNodeForConstant (N : NodeMaps) : Constant → Option NodeIndex
  | .pointerNull | .undefPointer => some NullPtrIndex
  | .globalValue v => N.valueNodeMap (.globalValue v)
  | .getElementPtr base _ => N.getValueNodeForConstant base
  | .bitCast operand => N.getValueNodeForConstant operand
  | .intToPtr => some UniversalPtrIndex
  | .pointerExpr | .scalar | .aggregateZero | .undefAggregate | .aggregate _ => none

def getValueNodeFor (N : NodeMaps) : PtrValue → Option NodeIndex
  | .instruction i => N.valueNodeMap (.instruction i)
  | .argument a => N.valueNodeMap (.argument a)
  | .constant c => N.getValueNodeForConstant c
  | .scalar => none

def getObjectNodeForConstant (N : NodeMaps) : Constant → Option NodeIndex
  | .pointerNull => some NullObjectIndex
  | .globalValue v => N.objNodeMap (.globalValue v)
  | .getElementPtr base _ => N.getObjectNodeForConstant base
  | .bitCast operand => N.getObjectNodeForConstant operand
  | .intToPtr => some UniversalObjIndex
  | .undefPointer | .pointerExpr | .scalar | .aggregateZero | .undefAggregate | .aggregate _ =>
    none

end NodeMaps

/-- The members `nodeFactory` and `constraints` of the pass. -/
structure Collection where
  nodeFactory : NodeMaps
  constraints : List AndersConstraint

/-- `addConstraintForExternalLibrary`: whether a call was handled, and what was added. -/
abbrev LibraryModel :=
  Collection → PtrInstruction → List PtrValue → PtrFunction → Option (Bool × Collection)

namespace Collection

def emplace (A : Collection) (type : ConstraintType) (dest src : NodeIndex) : Collection :=
  { A with constraints := A.constraints ++ [⟨type, dest, src⟩] }

def getValueNodeFor (A : Collection) (v : PtrValue) : Option NodeIndex :=
  A.nodeFactory.getValueNodeFor v

def getReturnNodeFor (A : Collection) (f : FuncId) : Option NodeIndex := A.nodeFactory.returnMap f

def createValueNode (A : Collection) (v : Entity) : Option (NodeIndex × Collection) := do
  let (n, N) ← A.nodeFactory.createValueNode v
  return (n, { A with nodeFactory := N })

def createObjectNode (A : Collection) (v : Entity) : Option (NodeIndex × Collection) := do
  let (n, N) ← A.nodeFactory.createObjectNode v
  return (n, { A with nodeFactory := N })

def createReturnNode (A : Collection) (f : FuncId) : Option Collection := do
  let N ← A.nodeFactory.createReturnNode f
  return { A with nodeFactory := N }

def createVarargNode (A : Collection) (f : FuncId) : Option Collection := do
  let N ← A.nodeFactory.createVarargNode f
  return { A with nodeFactory := N }

def onlyIf (A : Collection) (condition : Bool) (body : Collection → Option Collection) :
    Option Collection := if condition then body A else some A

def copyValue (A : Collection) (dst src : PtrValue) : Option Collection := do
  let srcIndex ← A.getValueNodeFor src
  let dstIndex ← A.getValueNodeFor dst
  return A.emplace .COPY dstIndex srcIndex

def copyUniversal (A : Collection) (dst : PtrValue) : Option Collection := do
  let dstIndex ← A.getValueNodeFor dst
  return A.emplace .COPY dstIndex UniversalPtrIndex

/-- A global variable or function whose address is taken: `&v = <memory of v>`. -/
def addAddressable (A : Collection) (v : GlobalValue) : Option Collection := do
  let (val, A) ← A.createValueNode (.globalValue v)
  let (obj, A) ← A.createObjectNode (.globalValue v)
  return A.emplace .ADDR_OF val obj

def addFormal (A : Collection) (formal : Argument) : Option Collection :=
  A.onlyIf formal.pointerTy fun A => do
    let (_, A) ← A.createValueNode (.argument formal.id)
    return A

def addFunctionBody (A : Collection) (F : PtrFunction) : Option Collection := do
  let A ← A.onlyIf F.returnsPointer (·.createReturnNode F.id)
  let A ← A.onlyIf F.isVarArg (·.createVarargNode F.id)
  F.args.foldlM addFormal A

def addFunction (M : PtrModule) (A : Collection) (F : PtrFunction) : Option Collection := do
  let A ← A.onlyIf (M.hasAddressTaken F.id) (·.addAddressable (.function F.id))
  A.onlyIf (!F.isExternal) (·.addFunctionBody F)

def addGlobalInitializerConstraints (A : Collection) (objNode : NodeIndex) :
    Constant → Option Collection
  | .aggregate elements => addElements A objNode elements
  | .aggregateZero => some (A.emplace .COPY objNode NullObjectIndex)
  | .undefAggregate | .scalar => some A
  | c => do
    let rhsNode ← A.nodeFactory.getObjectNodeForConstant c
    return A.emplace .ADDR_OF objNode rhsNode
where
  addElements (A : Collection) (objNode : NodeIndex) : List Constant → Option Collection
    | [] => some A
    | c :: rest => do
      let A ← addGlobalInitializerConstraints A objNode c
      addElements A objNode rest

def initGlobal (A : Collection) (G : GlobalVariable) : Option Collection := do
  let gObj ← A.nodeFactory.objNodeMap (.globalValue (.globalVariable G.id))
  match G.definitiveInitializer with
  | some c => A.addGlobalInitializerConstraints gObj c
  | none => return A.emplace .COPY gObj UniversalObjIndex

def collectConstraintsForGlobals (M : PtrModule) (A : Collection) : Option Collection := do
  let A ← M.globals.foldlM (fun A G => A.addAddressable (.globalVariable G.id)) A
  let A ← M.functions.foldlM (addFunction M) A
  M.globals.foldlM initGlobal A

def addFormalActual (A : Collection) (pair : Argument × PtrValue) : Option Collection :=
  A.onlyIf pair.1.pointerTy fun A =>
    if pair.2.isPointerTy then A.copyValue (.argument pair.1.id) pair.2
    else A.copyUniversal (.argument pair.1.id)

def addVararg (F : PtrFunction) (A : Collection) (actual : PtrValue) : Option Collection :=
  A.onlyIf actual.isPointerTy fun A => do
    let aIndex ← A.getValueNodeFor actual
    let vaIndex ← A.nodeFactory.varargMap F.id
    return A.emplace .COPY vaIndex aIndex

def addArgumentConstraintForCall (A : Collection) (args : List PtrValue) (F : PtrFunction) :
    Option Collection := do
  let A ← (F.args.zip args).foldlM addFormalActual A
  A.onlyIf F.isVarArg ((args.drop F.args.length).foldlM (addVararg F) ·)

/-- Arguments of an unresolved library function may come to point to anything. -/
def pollute (A : Collection) (args : List PtrValue) : Option Collection :=
  args.foldlM (fun A v => A.onlyIf v.isPointerTy (·.copyUniversal v)) A

def addDirectCall (library : LibraryModel) (A : Collection) (I : PtrInstruction)
    (args : List PtrValue) (F : PtrFunction) : Option Collection :=
  if F.isExternal then do
    let (handled, A) ← library A I args F
    A.onlyIf (!handled) fun A => do
      let A ← A.onlyIf I.pointerTy (·.copyUniversal (.instruction I.id))
      A.pollute args
  else do
    let A ← A.onlyIf I.pointerTy fun A => do
      let retIndex ← A.getValueNodeFor (.instruction I.id)
      let fRetIndex ← A.getReturnNodeFor F.id
      return A.emplace .COPY retIndex fRetIndex
    A.addArgumentConstraintForCall args F

/-- One function that an indirect call may reach. Here `pollute` asks for the node of
    every argument, whatever its type. -/
def addIndirectTarget (library : LibraryModel) (I : PtrInstruction) (args : List PtrValue)
    (A : Collection) (F : PtrFunction) : Option Collection :=
  if (A.nodeFactory.valueNodeMap (.globalValue (.function F.id))).isNone then some A
  else if !F.isVarArg && F.args.length ≠ args.length then some A
  else if F.isExternal then do
    let (handled, A) ← library A I args F
    A.onlyIf (!handled) (args.foldlM copyUniversal ·)
  else A.addArgumentConstraintForCall args F

def addConstraintForCall (library : LibraryModel) (M : PtrModule) (A : Collection)
    (I : PtrInstruction) (args : List PtrValue) : Callee → Option Collection
  | .direct f => do
    let F ← M.function? f
    A.addDirectCall library I args F
  | .indirect _ => do
    let A ← A.onlyIf I.pointerTy (·.copyUniversal (.instruction I.id))
    M.functions.foldlM (addIndirectTarget library I args) A

def collectConstraintsForInstruction (library : LibraryModel) (M : PtrModule) (F : PtrFunction)
    (A : Collection) (I : PtrInstruction) : Option Collection :=
  match I.op with
  | .alloca => do
    let valNode ← A.getValueNodeFor (.instruction I.id)
    let (objNode, A) ← A.createObjectNode (.instruction I.id)
    return A.emplace .ADDR_OF valNode objNode
  | .call callee args => A.addConstraintForCall library M I args callee
  | .ret none => some A
  | .ret (some v) =>
    A.onlyIf v.isPointerTy fun A => do
      let retIndex ← A.getReturnNodeFor F.id
      let valIndex ← A.getValueNodeFor v
      return A.emplace .COPY retIndex valIndex
  | .load p =>
    A.onlyIf I.pointerTy fun A => do
      let opIndex ← A.getValueNodeFor p
      let valIndex ← A.getValueNodeFor (.instruction I.id)
      return A.emplace .LOAD valIndex opIndex
  | .store v p =>
    A.onlyIf v.isPointerTy fun A => do
      let srcIndex ← A.getValueNodeFor v
      let dstIndex ← A.getValueNodeFor p
      return A.emplace .STORE dstIndex srcIndex
  | .getElementPtr base => if I.pointerTy then A.copyValue (.instruction I.id) base else none
  | .phi incoming =>
    A.onlyIf I.pointerTy fun A => do
      let _ ← A.getValueNodeFor (.instruction I.id)
      incoming.foldlM (fun A edge => A.copyValue (.instruction I.id) edge.2) A
  | .bitCast operand =>
    A.onlyIf I.pointerTy (·.copyValue (.instruction I.id) operand)
  | .intToPtr (.ptrToInt v) | .intToPtr (.ptrToIntPlus v) =>
    if I.pointerTy then A.copyValue (.instruction I.id) v else none
  | .intToPtr .unknown => if I.pointerTy then A.copyUniversal (.instruction I.id) else none
  | .select ifTrue ifFalse =>
    A.onlyIf I.pointerTy fun A => do
      let srcIndex1 ← A.getValueNodeFor ifTrue
      let srcIndex2 ← A.getValueNodeFor ifFalse
      let dstIndex ← A.getValueNodeFor (.instruction I.id)
      return (A.emplace .COPY dstIndex srcIndex1).emplace .COPY dstIndex srcIndex2
  | .vaArg =>
    A.onlyIf I.pointerTy fun A => do
      let dstIndex ← A.getValueNodeFor (.instruction I.id)
      let vaIndex ← A.nodeFactory.varargMap F.id
      return A.emplace .COPY dstIndex vaIndex
  | .extractValue => if I.pointerTy then none else some A
  | .unsupported => none
  | .branch _ | .other => if I.pointerTy then none else some A

def addInstructionNode (A : Collection) (I : PtrInstruction) : Option Collection :=
  A.onlyIf I.pointerTy fun A => do
    let (_, A) ← A.createValueNode (.instruction I.id)
    return A

def collectConstraintsForFunction (library : LibraryModel) (M : PtrModule) (A : Collection)
    (F : PtrFunction) : Option Collection :=
  A.onlyIf (!F.isExternal) fun A => do
    let A ← F.insts.foldlM addInstructionNode A
    F.insts.foldlM (collectConstraintsForInstruction library M F) A

def initial : Collection :=
  ⟨NodeMaps.start, [⟨.ADDR_OF, UniversalPtrIndex, UniversalObjIndex⟩,
    ⟨.STORE, UniversalObjIndex, UniversalObjIndex⟩, ⟨.ADDR_OF, NullPtrIndex, NullObjectIndex⟩]⟩

def collectConstraints (library : LibraryModel) (M : PtrModule) : Option Collection := do
  let A ← initial.collectConstraintsForGlobals M
  M.functions.foldlM (collectConstraintsForFunction library M) A

end Collection
end ProgramSlicer.Andersen
