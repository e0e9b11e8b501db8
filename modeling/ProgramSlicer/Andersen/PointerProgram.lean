import ProgramSlicer.LlvmModule

/-!
The part of a module in LLVM IR that constraint generation reads, with what an
execution needs besides. An instruction or argument that is not of pointer type
is `PtrValue.scalar` where it is an operand: nothing is recorded about it.
-/
namespace ProgramSlicer.Andersen

abbrev GlobalId := Nat

inductive GlobalValue where
  | globalVariable (g : GlobalId)
  | function (f : FuncId)
deriving DecidableEq, Repr

/-- What the maps of the node factory are keyed by. -/
inductive Entity where
  | instruction (i : InstId)
  | argument (a : ArgId)
  | globalValue (v : GlobalValue)
deriving DecidableEq, Repr

/-- `scalar` is every constant of a single value type that is not a pointer, and
    `pointerExpr` every constant expression of pointer type with another opcode. -/
inductive Constant where
  | pointerNull
  | undefPointer
  | globalValue (v : GlobalValue)
  | getElementPtr (base : Constant) (offset : Int)
  | bitCast (operand : Constant)
  | intToPtr
  | pointerExpr
  | scalar
  | aggregateZero
  | undefAggregate
  | aggregate (elements : List Constant)

namespace Constant

def isPointerTy : Constant → Bool
  | pointerNull | undefPointer | globalValue _ | getElementPtr _ _ | bitCast _ | intToPtr
  | pointerExpr => true
  | scalar | aggregateZero | undefAggregate | aggregate _ => false

def mentions (f : FuncId) : Constant → Bool
  | globalValue v => v = .function f
  | getElementPtr base _ => base.mentions f
  | bitCast operand => operand.mentions f
  | aggregate elements => anyMentions elements
  | _ => false
where
  anyMentions : List Constant → Bool
    | [] => false
    | c :: rest => c.mentions f || anyMentions rest

def leaves : Constant → List Constant
  | aggregate elements => allLeaves elements
  | c => if c.isPointerTy then [c] else []
where
  allLeaves : List Constant → List Constant
    | [] => []
    | c :: rest => c.leaves ++ allLeaves rest

end Constant

inductive PtrValue where
  | instruction (i : InstId)
  | argument (a : ArgId)
  | constant (c : Constant)
  | scalar

def PtrValue.isPointerTy : PtrValue → Bool
  | instruction _ | argument _ => true
  | constant c => c.isPointerTy
  | scalar => false

def PtrValue.mentions (f : FuncId) : PtrValue → Bool
  | constant c => c.mentions f
  | _ => false

inductive Callee where
  | direct (f : FuncId)
  | indirect (v : PtrValue)

/-- The operand of an `inttoptr`, as far as the patterns tell operands apart. -/
inductive IntOperand where
  | ptrToInt (v : PtrValue)
  | ptrToIntPlus (v : PtrValue)
  | unknown

/-- `call` is also `invoke`, `branch` every terminator that goes on in the function,
    `extractValue` also `insertvalue`; `unsupported` are the opcodes that the pass
    gives up on, `other` the rest. -/
inductive Operation where
  | alloca
  | call (callee : Callee) (args : List PtrValue)
  | ret (value : Option PtrValue)
  | load (pointer : PtrValue)
  | store (value pointer : PtrValue)
  | getElementPtr (base : PtrValue)
  | phi (incoming : List (BlockId × PtrValue))
  | bitCast (operand : PtrValue)
  | intToPtr (operand : IntOperand)
  | select (ifTrue ifFalse : PtrValue)
  | vaArg
  | extractValue
  | unsupported
  | branch (targets : List BlockId)
  | other

/-- The operands of pointer type, less the callee of a direct call and those of
    `extractValue`, `unsupported` and `other` instructions. -/
def Operation.operands : Operation → List PtrValue
  | call (.direct _) args => args
  | call (.indirect v) args => v :: args
  | ret value => value.toList
  | load pointer => [pointer]
  | store value pointer => [value, pointer]
  | getElementPtr base => [base]
  | phi incoming => incoming.map Prod.snd
  | bitCast operand => [operand]
  | intToPtr (.ptrToInt v) | intToPtr (.ptrToIntPlus v) => [v]
  | select ifTrue ifFalse => [ifTrue, ifFalse]
  | intToPtr .unknown | alloca | vaArg | extractValue | unsupported | branch _ | other => []

structure PtrInstruction where
  id : InstId
  pointerTy : Bool
  op : Operation

structure PtrBlock where
  id : BlockId
  insts : List PtrInstruction

structure Argument where
  id : ArgId
  pointerTy : Bool

structure PtrFunction where
  id : FuncId
  args : List Argument
  returnsPointer : Bool
  isVarArg : Bool
  isIntrinsic : Bool
  blocks : List PtrBlock

namespace PtrFunction

def isDeclaration (F : PtrFunction) : Bool := F.blocks.isEmpty

def insts (F : PtrFunction) : List PtrInstruction := F.blocks.flatMap (·.insts)

def isExternal (F : PtrFunction) : Bool := F.isDeclaration || F.isIntrinsic

end PtrFunction

/-- `mayBeOverridden` holds of the linkage types weak, linkonce, common and extern_weak,
    and of variables initialised from outside. -/
structure GlobalVariable where
  id : GlobalId
  initializer : Option Constant
  mayBeOverridden : Bool

/-- The initialiser, where it is the variable's value in every linked program. -/
def GlobalVariable.definitiveInitializer (G : GlobalVariable) : Option Constant :=
  if G.mayBeOverridden then none else G.initializer

/-- Whether an initialiser or a modelled operand takes the function's address. -/
def usesAddress (globals : List GlobalVariable) (functions : List PtrFunction) (f : FuncId) :
    Bool :=
  globals.any (fun G => G.initializer.any (·.mentions f)) ||
    functions.any (fun F => F.insts.any fun I => I.op.operands.any (·.mentions f))

/-- `addressTaken` is LLVM's answer, which also counts uses that are not modelled, such as
    those in comparisons, in conversions to integers and in integer constants. -/
structure PtrModule where
  globals : List GlobalVariable
  functions : List PtrFunction
  addressTaken : FuncId → Bool := usesAddress globals functions
  address_used : ∀ f, usesAddress globals functions f = true → addressTaken f = true := by
    exact fun _ used => used
  global_nodup : (globals.map (·.id)).Nodup
  func_nodup : (functions.map (·.id)).Nodup
  inst_nodup : ((functions.flatMap (·.insts)).map (·.id)).Nodup
  arg_nodup : ((functions.flatMap (·.args)).map (·.id)).Nodup

namespace PtrModule

def function? (M : PtrModule) (f : FuncId) : Option PtrFunction :=
  M.functions.find? (·.id = f)

/-- Whether the function is used other than as the callee of a call. -/
def hasAddressTaken (M : PtrModule) (f : FuncId) : Bool := M.addressTaken f

end PtrModule

/-! The programs without casts from integers, calls of libraries and calls through pointers.
What is asked of types and names besides is what LLVM's verifier asks. -/

/-- Null or the address of a global, perhaps with an offset or another type. -/
def Constant.isAddress (M : PtrModule) : Constant → Bool
  | pointerNull => true
  | globalValue (.globalVariable g) => M.globals.any (·.id = g)
  | globalValue (.function f) => M.functions.any (·.id = f)
  | getElementPtr base _ => base.isAddress M
  | bitCast operand => operand.isAddress M
  | _ => false

def Constant.isInitializer (M : PtrModule) : Constant → Bool
  | aggregate elements => allInitializers elements
  | aggregateZero | undefAggregate | scalar => true
  | c => c.isAddress M
where
  allInitializers : List Constant → Bool
    | [] => true
    | c :: rest => c.isInitializer M && allInitializers rest

def PtrValue.isPointerIn (M : PtrModule) (F : PtrFunction) : PtrValue → Bool
  | instruction i => F.insts.any fun J => J.id = i && J.pointerTy
  | argument a => F.args.any fun formal => formal.id = a && formal.pointerTy
  | constant .undefPointer => true
  | constant c => c.isAddress M
  | scalar => false

def PtrValue.isOperandIn (M : PtrModule) (F : PtrFunction) (v : PtrValue) : Bool :=
  !v.isPointerTy || v.isPointerIn M F

def PtrInstruction.isPlain (M : PtrModule) (F : PtrFunction) (I : PtrInstruction) : Bool :=
  match I.op with
  | .alloca => I.pointerTy
  | .call (.direct f) args =>
    match M.function? f with
    | some G => !G.isExternal && (!I.pointerTy || G.returnsPointer) &&
        args.all (·.isOperandIn M F)
    | none => false
  | .ret none => true
  | .ret (some v) => (!v.isPointerTy || F.returnsPointer) && v.isOperandIn M F
  | .load p => p.isPointerIn M F
  | .store v p => p.isPointerIn M F && v.isOperandIn M F
  | .getElementPtr base => I.pointerTy && base.isPointerIn M F
  | .phi incoming => !I.pointerTy || incoming.all (·.2.isPointerIn M F)
  | .bitCast operand => !I.pointerTy || operand.isPointerIn M F
  | .select v w => !I.pointerTy || (v.isPointerIn M F && w.isPointerIn M F)
  | .branch _ | .other => !I.pointerTy
  | .call (.indirect _) _ | .intToPtr _ | .vaArg | .extractValue | .unsupported => false

structure PtrModule.Plain (M : PtrModule) : Prop where
  initialized : ∀ G ∈ M.globals, ∃ c, G.initializer = some c ∧ c.isInitializer M = true
  plain : ∀ F ∈ M.functions, F.isExternal = false → ∀ I ∈ F.insts, I.isPlain M F = true

end ProgramSlicer.Andersen
