import Mathlib.Data.Finset.Attr
import Mathlib.Logic.Function.Basic
import Mathlib.Logic.Relation
import ProgramSlicer.Andersen.PointerProgram

/-!
Executions of a module, as far as pointers are concerned. Memory is a set of
objects, one for each global variable and one for each time an `alloca` is
executed; an address is an object with an offset. A pointer that holds no
address (null, undefined, a function) is `none`. Conditions, indices and the
layout of initialisers are left open.
-/
namespace ProgramSlicer.Andersen

inductive MemoryObject where
  | global (g : GlobalId)
  | stack (site : InstId) (number : Nat)
deriving DecidableEq, Repr

/-- The `alloca` or global variable that creates the object. -/
def MemoryObject.site : MemoryObject → Entity
  | global g => .globalValue (.globalVariable g)
  | stack site _ => .instruction site

structure Address where
  object : MemoryObject
  offset : Int
deriving DecidableEq, Repr

def Address.shift (a : Address) (k : Int) : Address := { a with offset := a.offset + k }

@[simp] theorem Address.shift_object (a : Address) (k : Int) : (a.shift k).object = a.object := rfl

abbrev Memory := Address → Option Address

def Constant.eval : Constant → Option Address
  | globalValue (.globalVariable g) => some ⟨.global g, 0⟩
  | getElementPtr base offset => base.eval.map (·.shift offset)
  | bitCast operand => operand.eval
  | _ => none

/-- One activation of a function. -/
structure Frame where
  function : PtrFunction
  results : InstId → Option Address
  args : ArgId → Option Address
  block : BlockId
  rest : List PtrInstruction

namespace Frame

def eval (φ : Frame) : PtrValue → Option Address
  | .instruction i => φ.results i
  | .argument a => φ.args a
  | .constant c => c.eval
  | .scalar => none

def advance (φ : Frame) (I : PtrInstruction) (result : Option Address)
    (rest : List PtrInstruction) : Frame :=
  { φ with
    results := if I.pointerTy then Function.update φ.results I.id result else φ.results
    rest := rest }

/-- What a `phi` becomes when its block is entered from the block of the frame. -/
def incoming (φ : Frame) : Operation → Option Address
  | .phi edges => ((edges.find? (·.1 = φ.block)).map Prod.snd).bind φ.eval
  | _ => none

def isPhi (I : PtrInstruction) : Bool :=
  match I.op with
  | .phi _ => true
  | _ => false

/-- Going to a block: its `phi`s are evaluated at once. -/
def enter (φ : Frame) (B : PtrBlock) : Frame :=
  { φ with
    results := fun i =>
      match (B.insts.takeWhile isPhi).find? (fun I => I.id = i && I.pointerTy) with
      | some I => φ.incoming I.op
      | none => φ.results i
    block := B.id
    rest := B.insts.dropWhile isPhi }

def start (F : PtrFunction) (B : PtrBlock) (actuals : List (Option Address)) : Frame where
  function := F
  results := fun _ => none
  args := fun a =>
    (((F.args.zip actuals).find? fun pair => pair.1.id = a && pair.1.pointerTy).map Prod.snd).join
  block := B.id
  rest := B.insts

end Frame

/-- The results of the instructions that only compute. -/
inductive Computes (φ : Frame) (memory : Memory) : Operation → Option Address → Prop where
  | load {p : PtrValue} {a : Address} (pointer : φ.eval p = some a) :
      Computes φ memory (.load p) (memory a)
  | getElementPtr (base : PtrValue) (offset : Int) :
      Computes φ memory (.getElementPtr base) ((φ.eval base).map (·.shift offset))
  | bitCast (operand : PtrValue) : Computes φ memory (.bitCast operand) (φ.eval operand)
  | ifTrue (v w : PtrValue) : Computes φ memory (.select v w) (φ.eval v)
  | ifFalse (v w : PtrValue) : Computes φ memory (.select v w) (φ.eval w)
  | other : Computes φ memory .other none

/-- The memory after a store. Other cells that it overlaps lose their pointers. -/
structure Stored (memory memory' : Memory) (a : Address) (value : Option Address) : Prop where
  here : memory' a = value
  elsewhere : ∀ b, b ≠ a → memory' b = memory b ∨ memory' b = none

/-- The activations, the innermost first, the memory, and how many objects `alloca`s have
    created. -/
structure State where
  frames : List Frame
  memory : Memory
  objects : Nat

inductive Step (M : PtrModule) : State → State → Prop where
  | compute {φ : Frame} {below : List Frame} {memory : Memory} {n : Nat} {I : PtrInstruction}
      {rest : List PtrInstruction} {result : Option Address} (next : φ.rest = I :: rest)
      (computes : Computes φ memory I.op result) :
      Step M ⟨φ :: below, memory, n⟩ ⟨φ.advance I result rest :: below, memory, n⟩
  | alloca {φ : Frame} {below : List Frame} {memory : Memory} {n : Nat} {I : PtrInstruction}
      {rest : List PtrInstruction} (next : φ.rest = I :: rest) (op : I.op = .alloca) :
      Step M ⟨φ :: below, memory, n⟩
        ⟨φ.advance I (some ⟨.stack I.id n, 0⟩) rest :: below, memory, n + 1⟩
  | store {φ : Frame} {below : List Frame} {memory memory' : Memory} {n : Nat}
      {I : PtrInstruction} {rest : List PtrInstruction} {v p : PtrValue} {a : Address}
      (next : φ.rest = I :: rest) (op : I.op = .store v p) (pointer : φ.eval p = some a)
      (stored : Stored memory memory' a (φ.eval v)) :
      Step M ⟨φ :: below, memory, n⟩ ⟨φ.advance I none rest :: below, memory', n⟩
  | branch {φ : Frame} {below : List Frame} {memory : Memory} {n : Nat} {I : PtrInstruction}
      {rest : List PtrInstruction} {targets : List BlockId} {B : PtrBlock}
      (next : φ.rest = I :: rest) (op : I.op = .branch targets) (target : B.id ∈ targets)
      (block : B ∈ φ.function.blocks) :
      Step M ⟨φ :: below, memory, n⟩ ⟨φ.enter B :: below, memory, n⟩
  | call {φ : Frame} {below : List Frame} {memory : Memory} {n : Nat} {I : PtrInstruction}
      {rest : List PtrInstruction} {f : FuncId} {actuals : List PtrValue} {F : PtrFunction}
      {B : PtrBlock} (next : φ.rest = I :: rest) (op : I.op = .call (.direct f) actuals)
      (callee : M.function? f = some F) (entry : F.blocks.head? = some B) :
      Step M ⟨φ :: below, memory, n⟩
        ⟨Frame.start F B (actuals.map φ.eval) :: φ :: below, memory, n⟩
  | ret {φ caller : Frame} {below : List Frame} {memory : Memory} {n : Nat}
      {I C : PtrInstruction} {rest after : List PtrInstruction} {value : Option PtrValue}
      (next : φ.rest = I :: rest) (op : I.op = .ret value) (site : caller.rest = C :: after) :
      Step M ⟨φ :: caller :: below, memory, n⟩
        ⟨caller.advance C (value.bind φ.eval) after :: below, memory, n⟩
  | exit {φ : Frame} {memory : Memory} {n : Nat} {I : PtrInstruction}
      {rest : List PtrInstruction} {value : Option PtrValue} (next : φ.rest = I :: rest)
      (op : I.op = .ret value) : Step M ⟨[φ], memory, n⟩ ⟨[], memory, n⟩

def Initialised (M : PtrModule) (memory : Memory) : Prop :=
  ∀ a v, memory a = some v → ∃ G ∈ M.globals, a.object = .global G.id ∧
    ∃ c, G.initializer = some c ∧ ∃ leaf ∈ c.leaves, leaf.eval = some v

/-- The execution begins with a function that takes no pointer. -/
inductive Starts (M : PtrModule) : State → Prop where
  | start {F : PtrFunction} {B : PtrBlock} {memory : Memory} (function : F ∈ M.functions)
      (defined : F.isExternal = false) (entry : F.blocks.head? = some B)
      (noPointers : ∀ formal ∈ F.args, formal.pointerTy = false)
      (initialised : Initialised M memory) : Starts M ⟨[Frame.start F B []], memory, 0⟩

def Reachable (M : PtrModule) (s : State) : Prop :=
  ∃ s₀, Starts M s₀ ∧ Relation.ReflTransGen (Step M) s₀ s

end ProgramSlicer.Andersen
