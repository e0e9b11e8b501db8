import Mathlib.Data.List.Nodup
import Mathlib.Data.List.Pairwise
import Mathlib.Tactic.Common

/-!
The part of a module in LLVM IR that the slicer's passes read. A pointer to an
instruction, block, function or argument is its number; `Module` carries that
distinct entities have distinct numbers and that blocks know their function.
Everything that is not an instruction, an argument or a function (constants,
global variables, constant expressions, block labels) is `Value.other`.
-/
namespace ProgramSlicer

abbrev InstId := Nat
abbrev BlockId := Nat
abbrev FuncId := Nat
abbrev ArgId := Nat

inductive Value where
  | inst (i : InstId)
  | arg (a : ArgId)
  | func (f : FuncId)
  | other (k : Nat)
  deriving DecidableEq, Repr

/-- The opcodes the passes tell apart. `branch` is every terminator but `ret`. -/
inductive Opcode where
  | ret | branch | store | load | call | other
  deriving DecidableEq, Repr

structure Instruction where
  id : InstId
  opcode : Opcode
  operands : List Value := []
  succs : List BlockId := []
  deriving DecidableEq, Repr

def Instruction.isTerminator (I : Instruction) : Bool := I.opcode = .ret || I.opcode = .branch

/-- The callee is the last operand; it is `none` unless it is a function itself. -/
def Instruction.getCalledFunction (I : Instruction) : Option FuncId :=
  match I.operands.getLast? with
  | some (.func f) => some f
  | _ => none

def Instruction.argOperands (I : Instruction) : List Value := I.operands.dropLast

/-- `StoreInst::getPointerOperand`: operand 0 is the stored value. -/
def Instruction.storePointer (I : Instruction) : Option Value := I.operands[1]?

structure BasicBlock where
  id : BlockId
  parent : FuncId
  insts : List Instruction
  deriving DecidableEq, Repr

def BasicBlock.getTerminator (B : BasicBlock) : Option Instruction :=
  B.insts.getLast?.filter Instruction.isTerminator

def BasicBlock.successors (B : BasicBlock) : List BlockId :=
  (B.getTerminator.map Instruction.succs).getD []

structure Function where
  id : FuncId
  args : List ArgId := []
  blocks : List BasicBlock
  deriving DecidableEq, Repr

def Function.isDeclaration (F : Function) : Bool := F.blocks.isEmpty

def Function.insts (F : Function) : List Instruction := F.blocks.flatMap (·.insts)

/-- The edges of a function's control-flow graph. -/
def Function.Edge (F : Function) (b c : BlockId) : Prop :=
  ∃ B ∈ F.blocks, B.id = b ∧ c ∈ B.successors

def Function.SuccessorsLocal (F : Function) : Prop :=
  ∀ B ∈ F.blocks, ∀ c ∈ B.successors, ∃ C ∈ F.blocks, C.id = c

structure Module where
  functions : List Function
  func_nodup : (functions.map (·.id)).Nodup
  block_nodup : ((functions.flatMap (·.blocks)).map (·.id)).Nodup
  inst_nodup : ((functions.flatMap (·.insts)).map (·.id)).Nodup
  arg_nodup : (functions.flatMap (·.args)).Nodup
  parent_eq : ∀ F ∈ functions, ∀ B ∈ F.blocks, B.parent = F.id

def Module.blocks (M : Module) : List BasicBlock := M.functions.flatMap (·.blocks)
def Module.insts (M : Module) : List Instruction := M.functions.flatMap (·.insts)

def Module.block? (M : Module) (b : BlockId) : Option BasicBlock :=
  M.blocks.find? (·.id = b)

def Module.function? (M : Module) (f : FuncId) : Option Function :=
  M.functions.find? (·.id = f)

/-- A value that an instruction of the function may name. -/
def Function.Defines (F : Function) : Value → Prop
  | .inst j => ∃ J ∈ F.insts, J.id = j
  | .arg a => a ∈ F.args
  | .func _ => True
  | .other _ => True

/-- What LLVM's verifier promises about a module, as far as the passes rely on it. -/
structure Module.Verified (M : Module) : Prop where
  terminated : ∀ B ∈ M.blocks, B.getTerminator.isSome = true ∧
    ∀ I ∈ B.insts.dropLast, I.isTerminator = false
  successor_local : ∀ F ∈ M.functions, F.SuccessorsLocal
  operand_local : ∀ F ∈ M.functions, ∀ I ∈ F.insts, ∀ v ∈ I.operands, F.Defines v

instance (F : Function) : Decidable F.SuccessorsLocal :=
  inferInstanceAs (Decidable (∀ B ∈ F.blocks, ∀ c ∈ B.successors, ∃ C ∈ F.blocks, C.id = c))

instance (F : Function) (v : Value) : Decidable (F.Defines v) :=
  match v with
  | .inst j => inferInstanceAs (Decidable (∃ J ∈ F.insts, J.id = j))
  | .arg a => inferInstanceAs (Decidable (a ∈ F.args))
  | .func _ => .isTrue trivial
  | .other _ => .isTrue trivial

instance (M : Module) : Decidable M.Verified :=
  decidable_of_iff ((∀ B ∈ M.blocks, B.getTerminator.isSome = true ∧
      ∀ I ∈ B.insts.dropLast, I.isTerminator = false) ∧
    (∀ F ∈ M.functions, F.SuccessorsLocal) ∧
    ∀ F ∈ M.functions, ∀ I ∈ F.insts, ∀ v ∈ I.operands, F.Defines v)
  ⟨fun ⟨a, b, c⟩ => ⟨a, b, c⟩, fun ⟨a, b, c⟩ => ⟨a, b, c⟩⟩

/-- A return has no successor. -/
def Module.ReturnsLeave (M : Module) : Prop := ∀ I ∈ M.insts, I.opcode = .ret → I.succs = []

instance (M : Module) : Decidable M.ReturnsLeave :=
  inferInstanceAs (Decidable (∀ I ∈ M.insts, I.opcode = .ret → I.succs = []))

theorem mem_insts {F : Function} {I : Instruction} :
    I ∈ F.insts ↔ ∃ B ∈ F.blocks, I ∈ B.insts := by
  simp [Function.insts]

theorem mem_blocks {M : Module} {B : BasicBlock} :
    B ∈ M.blocks ↔ ∃ F ∈ M.functions, B ∈ F.blocks := by
  simp [Module.blocks]

theorem mem_module_insts {M : Module} {I : Instruction} :
    I ∈ M.insts ↔ ∃ F ∈ M.functions, I ∈ F.insts := by
  simp [Module.insts]

theorem insts_of_block {M : Module} {B : BasicBlock} (hB : B ∈ M.blocks) {I : Instruction}
    (hI : I ∈ B.insts) : I ∈ M.insts := by
  obtain ⟨F, hF, hBF⟩ := mem_blocks.mp hB
  exact mem_module_insts.mpr ⟨F, hF, mem_insts.mpr ⟨B, hBF, hI⟩⟩

theorem eq_of_key {α : Type} {key : α → Nat} {l : List α} (nodup : (l.map key).Nodup) {a b : α}
    (ha : a ∈ l) (hb : b ∈ l) (same : key a = key b) : a = b :=
  List.inj_on_of_nodup_map nodup ha hb same

theorem find_of_key {α : Type} {key : α → Nat} {l : List α} (nodup : (l.map key).Nodup) {a : α}
    (ha : a ∈ l) : l.find? (fun x => key x = key a) = some a := by
  cases found : l.find? (fun x => key x = key a) with
  | none => simpa using List.find?_eq_none.mp found a ha
  | some b =>
    have same : key b = key a := by simpa using List.find?_some found
    rw [eq_of_key nodup (List.mem_of_find?_eq_some found) ha same]

theorem block_eq {M : Module} {B C : BasicBlock} (hB : B ∈ M.blocks) (hC : C ∈ M.blocks)
    (same : B.id = C.id) : B = C := eq_of_key M.block_nodup hB hC same

theorem inst_eq {M : Module} {I J : Instruction} (hI : I ∈ M.insts) (hJ : J ∈ M.insts)
    (same : I.id = J.id) : I = J := eq_of_key M.inst_nodup hI hJ same

theorem function_eq {M : Module} {F G : Function} (hF : F ∈ M.functions) (hG : G ∈ M.functions)
    (same : F.id = G.id) : F = G := eq_of_key M.func_nodup hF hG same

theorem block_lookup {M : Module} {B : BasicBlock} {b : BlockId} :
    M.block? b = some B ↔ B ∈ M.blocks ∧ B.id = b := by
  constructor
  · intro found
    exact ⟨List.mem_of_find?_eq_some found, by simpa using List.find?_some found⟩
  · rintro ⟨hB, rfl⟩
    exact find_of_key M.block_nodup hB

theorem function_lookup {M : Module} {F : Function} {f : FuncId} :
    M.function? f = some F ↔ F ∈ M.functions ∧ F.id = f := by
  constructor
  · intro found
    exact ⟨List.mem_of_find?_eq_some found, by simpa using List.find?_some found⟩
  · rintro ⟨hF, rfl⟩
    exact find_of_key M.func_nodup hF

theorem block_function_eq {M : Module} {F G : Function} {B : BasicBlock} (hF : F ∈ M.functions)
    (hG : G ∈ M.functions) (hBF : B ∈ F.blocks) (hBG : B ∈ G.blocks) : F = G :=
  function_eq hF hG ((M.parent_eq F hF B hBF).symm.trans (M.parent_eq G hG B hBG))

theorem eq_of_member {α β : Type} {f : α → List β} {l : List α} (nodup : (l.flatMap f).Nodup)
    {a b : α} (ha : a ∈ l) (hb : b ∈ l) {x : β} (hxa : x ∈ f a) (hxb : x ∈ f b) : a = b := by
  by_contra other
  have symmetric : Std.Symm (Function.onFun List.Disjoint f) :=
    ⟨fun _ _ apart _ inB inA => apart inA inB⟩
  exact (List.nodup_flatMap.mp nodup).2.forall ha hb other hxa hxb

theorem inst_function_eq {M : Module} {F G : Function} (hF : F ∈ M.functions)
    (hG : G ∈ M.functions) {I : Instruction} (hIF : I ∈ F.insts) (hIG : I ∈ G.insts) : F = G :=
  eq_of_member M.inst_nodup.of_map hF hG hIF hIG

theorem inst_block_eq {M : Module} {B C : BasicBlock} (hB : B ∈ M.blocks) (hC : C ∈ M.blocks)
    {I : Instruction} (hIB : I ∈ B.insts) (hIC : I ∈ C.insts) : B = C := by
  have nodup : (M.blocks.flatMap (·.insts)).Nodup := by
    unfold Module.blocks
    rw [List.flatMap_assoc]
    exact M.inst_nodup.of_map
  exact eq_of_member nodup hB hC hIB hIC

theorem arg_function_eq {M : Module} {F G : Function} (hF : F ∈ M.functions)
    (hG : G ∈ M.functions) {a : ArgId} (haF : a ∈ F.args) (haG : a ∈ G.args) : F = G :=
  eq_of_member M.arg_nodup hF hG haF haG

end ProgramSlicer
