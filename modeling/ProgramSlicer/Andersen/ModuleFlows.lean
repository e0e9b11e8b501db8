import ProgramSlicer.Andersen.ExternalLibrary

/-!
What flows where in a module: the inclusion constraints of its globals and instructions
over the values and objects themselves, before any of them is given a node. How they are
numbered and in which order they are found does not come into it.
-/
namespace ProgramSlicer.Andersen
open InclusionConstraints

/-- What a node stands for. `between` is what a copy of memory passes on. -/
inductive Place where
  | universalPtr
  | universalObject
  | nullPtr
  | nullObject
  | slot (k : Slot)
  | between (dest src : Place)
deriving DecidableEq

structure Flow where
  type : ConstraintType
  dest : Place
  src : Place
deriving DecidableEq

def flow (type : ConstraintType) (dest src : Option Place) : Set Flow :=
  {f | f.type = type ∧ dest = some f.dest ∧ src = some f.src}

def flowsIf (condition : Bool) (flows : Set Flow) : Set Flow :=
  {f | condition = true ∧ f ∈ flows}

def flowSystem (flows : Set Flow) : System Place where
  addrOf d s := ⟨.ADDR_OF, d, s⟩ ∈ flows
  copy d s := ⟨.COPY, d, s⟩ ∈ flows
  load d s := ⟨.LOAD, d, s⟩ ∈ flows
  store d s := ⟨.STORE, d, s⟩ ∈ flows

def valuePlace (v : Entity) : Option Place := some (.slot (.value v))

def objectPlace (v : Entity) : Option Place := some (.slot (.object v))

def Constant.place : Constant → Option Place
  | pointerNull | undefPointer => some .nullPtr
  | globalValue v => valuePlace (.globalValue v)
  | getElementPtr base _ => base.place
  | bitCast operand => operand.place
  | intToPtr => some .universalPtr
  | pointerExpr | scalar | aggregateZero | undefAggregate | aggregate _ => none

/-- What a pointer in an initialiser points to. -/
def Constant.pointee : Constant → Option Place
  | pointerNull => some .nullObject
  | globalValue v => objectPlace (.globalValue v)
  | getElementPtr base _ => base.pointee
  | bitCast operand => operand.pointee
  | intToPtr => some .universalObject
  | undefPointer | pointerExpr | scalar | aggregateZero | undefAggregate | aggregate _ => none

def PtrValue.place : PtrValue → Option Place
  | instruction i => valuePlace (.instruction i)
  | argument a => valuePlace (.argument a)
  | constant c => c.place
  | scalar => none

def PtrValue.unknownFlows (v : PtrValue) : Set Flow := flow .COPY v.place (some .universalPtr)

def PtrInstruction.value (I : PtrInstruction) : PtrValue := .instruction I.id

/-! ### Globals -/

def GlobalValue.flows (v : GlobalValue) : Set Flow :=
  flow .ADDR_OF (valuePlace (.globalValue v)) (objectPlace (.globalValue v))

def Constant.flowsInto (obj : Option Place) : Constant → Set Flow
  | aggregate elements => allFlows elements
  | aggregateZero => flow .COPY obj (some .nullObject)
  | undefAggregate | scalar => ∅
  | c => flow .ADDR_OF obj c.pointee
where
  allFlows : List Constant → Set Flow
    | [] => ∅
    | c :: rest => c.flowsInto obj ∪ allFlows rest

def GlobalVariable.flows (G : GlobalVariable) : Set Flow :=
  let obj := objectPlace (.globalValue (.globalVariable G.id))
  match G.definitiveInitializer with
  | some c => c.flowsInto obj
  | none => flow .COPY obj (some .universalObject)

/-! ### Calls -/

def passedFlows (pair : Argument × PtrValue) : Set Flow :=
  let formal : PtrValue := .argument pair.1.id
  flowsIf pair.1.pointerTy
    (if pair.2.isPointerTy then flow .COPY formal.place pair.2.place else formal.unknownFlows)

def PtrFunction.argumentFlows (F : PtrFunction) (args : List PtrValue) : Set Flow :=
  (⋃ pair ∈ F.args.zip args, passedFlows pair) ∪
    flowsIf F.isVarArg (⋃ v ∈ args.drop F.args.length,
      flowsIf v.isPointerTy (flow .COPY (some (.slot (.vararg F.id))) v.place))

section Library
variable (names : FuncId → String) (M : PtrModule) (I : PtrInstruction) (args : List PtrValue)

def argumentPlace (k : Nat) : Option Place := args[k]?.bind PtrValue.place

def allocationFlows : Set Flow :=
  let obj := objectPlace (.instruction I.id)
  if I.pointerTy then flow .ADDR_OF I.value.place obj else flow .STORE (argumentPlace args 0) obj

def returnedFlows (k : Nat) : Set Flow := flow .COPY I.value.place (argumentPlace args k)

def transferFlows (dest src : Place) : Set Flow :=
  {⟨.LOAD, .between dest src, src⟩, ⟨.STORE, dest, .between dest src⟩}

def memcpyFlows : Set Flow :=
  {f | ∃ dest src, argumentPlace args 0 = some dest ∧ argumentPlace args 1 = some src ∧
    f ∈ transferFlows dest src} ∪
    flowsIf I.pointerTy (flow .COPY I.value.place (argumentPlace args 0))

def conversionFlows : Set Flow :=
  flowsIf (!args[1]?.any PtrValue.isPointerNull)
    (flow .STORE (argumentPlace args 0) (argumentPlace args 1))

def vaStartFlows : Set Flow :=
  flow .ADDR_OF (argumentPlace args 0)
    ((M.functions.find? fun F => F.insts.any (·.id = I.id)).map fun F => .slot (.vararg F.id))

/-- `none`: the function is in no table. -/
def libraryFlows (f : PtrFunction) : Option (Set Flow) :=
  let name := names f.id
  if lookupName noopFuncs name then some ∅
  else if lookupName mallocFuncs name then some (allocationFlows I args)
  else if lookupName reallocFuncs name then
    some (if args[0]?.any PtrValue.isPointerNull then returnedFlows I args 0
      else allocationFlows I args)
  else if lookupName retArg0Funcs name then some (returnedFlows I args 0)
  else if lookupName retArg1Funcs name then some (returnedFlows I args 1)
  else if lookupName retArg2Funcs name then some (returnedFlows I args 2)
  else if lookupName memcpyFuncs name then some (memcpyFlows I args)
  else if lookupName convertFuncs name then some (conversionFlows args)
  else if name = "llvm.va_start" then some (vaStartFlows M I args)
  else none

def directFlows (F : PtrFunction) : Set Flow :=
  if F.isExternal then
    (libraryFlows names M I args F).getD
      (flowsIf I.pointerTy I.value.unknownFlows ∪
        ⋃ v ∈ args, flowsIf v.isPointerTy v.unknownFlows)
  else
    flowsIf I.pointerTy (flow .COPY I.value.place (some (.slot (.ret F.id)))) ∪
      F.argumentFlows args

/-- A function whose address is taken is called with arguments of any types. -/
def targetFlows (F : PtrFunction) : Set Flow :=
  flowsIf (M.hasAddressTaken F.id && (F.isVarArg || F.args.length = args.length))
    (if F.isExternal then (libraryFlows names M I args F).getD (⋃ v ∈ args, v.unknownFlows)
      else F.argumentFlows args)

def callFlows : Callee → Set Flow
  | .direct f => ⋃ F ∈ M.function? f, directFlows names M I args F
  | .indirect _ =>
    flowsIf I.pointerTy I.value.unknownFlows ∪ ⋃ F ∈ M.functions, targetFlows names M I args F

end Library

/-! ### Instructions -/

def PtrInstruction.flows (names : FuncId → String) (M : PtrModule) (F : PtrFunction)
    (I : PtrInstruction) : Set Flow :=
  match I.op with
  | .alloca => flow .ADDR_OF I.value.place (objectPlace (.instruction I.id))
  | .call callee args => callFlows names M I args callee
  | .ret (some v) => flowsIf v.isPointerTy (flow .COPY (some (.slot (.ret F.id))) v.place)
  | .load p => flowsIf I.pointerTy (flow .LOAD I.value.place p.place)
  | .store v p => flowsIf v.isPointerTy (flow .STORE p.place v.place)
  | .getElementPtr v | .intToPtr (.ptrToInt v) | .intToPtr (.ptrToIntPlus v) =>
    flow .COPY I.value.place v.place
  | .phi incoming =>
    flowsIf I.pointerTy (⋃ edge ∈ incoming, flow .COPY I.value.place edge.2.place)
  | .bitCast v => flowsIf I.pointerTy (flow .COPY I.value.place v.place)
  | .intToPtr .unknown => I.value.unknownFlows
  | .select v w =>
    flowsIf I.pointerTy (flow .COPY I.value.place v.place ∪ flow .COPY I.value.place w.place)
  | .vaArg => flowsIf I.pointerTy (flow .COPY I.value.place (some (.slot (.vararg F.id))))
  | .ret none | .extractValue | .unsupported | .branch _ | .other => ∅

def PtrFunction.flows (names : FuncId → String) (M : PtrModule) (F : PtrFunction) : Set Flow :=
  flowsIf (!F.isExternal) (⋃ I ∈ F.insts, I.flows names M F)

def PtrModule.globalFlows (M : PtrModule) : Set Flow :=
  (⋃ G ∈ M.globals, (GlobalValue.globalVariable G.id).flows) ∪
    (⋃ F ∈ M.functions, flowsIf (M.hasAddressTaken F.id) (GlobalValue.function F.id).flows) ∪
    ⋃ G ∈ M.globals, G.flows

/-- Everything but the constraints on the universal and the null nodes. -/
def PtrModule.ownFlows (names : FuncId → String) (M : PtrModule) : Set Flow :=
  M.globalFlows ∪ ⋃ F ∈ M.functions, F.flows names M

def initialFlows : Set Flow :=
  {⟨.ADDR_OF, .universalPtr, .universalObject⟩, ⟨.STORE, .universalObject, .universalObject⟩,
    ⟨.ADDR_OF, .nullPtr, .nullObject⟩}

def PtrModule.flows (names : FuncId → String) (M : PtrModule) : Set Flow :=
  initialFlows ∪ M.ownFlows names

@[simp] theorem mem_flow {type : ConstraintType} {dest src : Option Place} {f : Flow} :
    f ∈ flow type dest src ↔ f.type = type ∧ dest = some f.dest ∧ src = some f.src := Iff.rfl

@[simp] theorem mem_flowsIf {condition : Bool} {flows : Set Flow} {f : Flow} :
    f ∈ flowsIf condition flows ↔ condition = true ∧ f ∈ flows := Iff.rfl

@[simp] theorem flowsIf_true (flows : Set Flow) : flowsIf true flows = flows := by
  ext f
  simp

@[simp] theorem flowsIf_false (flows : Set Flow) : flowsIf false flows = ∅ := by
  ext f
  simp

theorem flow_some (type : ConstraintType) (dest src : Place) :
    flow type (some dest) (some src) = {⟨type, dest, src⟩} := by
  ext ⟨t, d, s⟩
  simp [eq_comm]

end ProgramSlicer.Andersen
