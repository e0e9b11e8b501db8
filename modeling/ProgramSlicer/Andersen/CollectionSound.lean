import ProgramSlicer.Andersen.Execution
import ProgramSlicer.Andersen.InstructionConstraints

/-!
The constraints that `collectConstraints` leaves account for every execution:
what a pointer or a memory cell holds is in the least solution at its node. The
invariant is kept by each step because the constraints of the instruction that
is executed derive whatever it writes.
-/
namespace ProgramSlicer.Andersen
open InclusionConstraints

namespace Collection
variable {A : Collection} {M : PtrModule}

def objectNode (A : Collection) (o : MemoryObject) : Option NodeIndex :=
  A.node (.object o.site)

/-- The node exists, the object has a node, and the sets relate them. -/
def PointsTo (A : Collection) (pts : NodeIndex → Set NodeIndex) (n : Option NodeIndex)
    (o : MemoryObject) : Prop :=
  ∃ k b, n = some k ∧ A.objectNode o = some b ∧ b ∈ pts k

section Solution
variable {pts : NodeIndex → Set NodeIndex} (solves : Solves (constraintSystem A.constraints) pts)
include solves

theorem pointsTo_addrOf {n : Option NodeIndex} {o : MemoryObject}
    (joined : A.Joined .ADDR_OF n (A.objectNode o)) : A.PointsTo pts n o := by
  obtain ⟨d, s, isDest, isSrc, mem⟩ := joined
  exact ⟨d, s, isDest, isSrc, solves.addrOf d s mem⟩

theorem pointsTo_copy {d s : Option NodeIndex} {o : MemoryObject} (joined : A.Joined .COPY d s)
    (value : A.PointsTo pts s o) : A.PointsTo pts d o := by
  obtain ⟨dest, src, isDest, isSrc, mem⟩ := joined
  obtain ⟨k, b, isK, isB, known⟩ := value
  have same : k = src := Option.some.inj (isK.symm.trans isSrc)
  exact ⟨dest, b, isDest, isB, solves.copy dest src mem (same ▸ known)⟩

theorem pointsTo_load {d s : Option NodeIndex} {p o : MemoryObject} (joined : A.Joined .LOAD d s)
    (pointee : A.PointsTo pts s p) (value : A.PointsTo pts (A.objectNode p) o) :
    A.PointsTo pts d o := by
  obtain ⟨dest, src, isDest, isSrc, mem⟩ := joined
  obtain ⟨k, q, isK, isQ, toPointee⟩ := pointee
  obtain ⟨l, b, isL, isB, known⟩ := value
  have same : k = src := Option.some.inj (isK.symm.trans isSrc)
  have same' : l = q := Option.some.inj (isL.symm.trans isQ)
  exact ⟨dest, b, isDest, isB, solves.load dest src mem q (same ▸ toPointee) (same' ▸ known)⟩

theorem pointsTo_store {d s : Option NodeIndex} {p o : MemoryObject}
    (joined : A.Joined .STORE d s) (pointee : A.PointsTo pts d p) (value : A.PointsTo pts s o) :
    A.PointsTo pts (A.objectNode p) o := by
  obtain ⟨dest, src, isDest, isSrc, mem⟩ := joined
  obtain ⟨k, q, isK, isQ, toPointee⟩ := pointee
  obtain ⟨l, b, isL, isB, known⟩ := value
  have same : k = dest := Option.some.inj (isK.symm.trans isDest)
  have same' : l = src := Option.some.inj (isL.symm.trans isSrc)
  exact ⟨q, b, isQ, isB, solves.store dest src mem q (same ▸ toPointee) (same' ▸ known)⟩

end Solution

/-- The node exists, the object has a node, and the least solution relates them. -/
def MayPoint (A : Collection) (n : Option NodeIndex) (o : MemoryObject) : Prop :=
  ∃ k b, n = some k ∧ A.objectNode o = some b ∧
    b ∈ solution (constraintSystem A.constraints) k

/-- What is asked of the constraints in a state of an execution. -/
structure Approximates (M : PtrModule) (A : Collection) (s : State) : Prop where
  values : ∀ φ ∈ s.frames, ∀ v, v.isPointerIn M φ.function = true → ∀ a, φ.eval v = some a →
    A.MayPoint (A.getValueNodeFor v) a.object
  memory : ∀ c a, s.memory c = some a → A.MayPoint (A.objectNode c.object) a.object

theorem mayPoint_addrOf {n : Option NodeIndex} {o : MemoryObject}
    (joined : A.Joined .ADDR_OF n (A.objectNode o)) : A.MayPoint n o :=
  pointsTo_addrOf (solution_solves _) joined

theorem mayPoint_copy {d s : Option NodeIndex} {o : MemoryObject} (joined : A.Joined .COPY d s)
    (value : A.MayPoint s o) : A.MayPoint d o :=
  pointsTo_copy (solution_solves _) joined value

theorem mayPoint_load {d s : Option NodeIndex} {p o : MemoryObject} (joined : A.Joined .LOAD d s)
    (pointee : A.MayPoint s p) (value : A.MayPoint (A.objectNode p) o) : A.MayPoint d o :=
  pointsTo_load (solution_solves _) joined pointee value

theorem mayPoint_store {d s : Option NodeIndex} {p o : MemoryObject} (joined : A.Joined .STORE d s)
    (pointee : A.MayPoint d p) (value : A.MayPoint s o) : A.MayPoint (A.objectNode p) o :=
  pointsTo_store (solution_solves _) joined pointee value

structure FrameInv (M : PtrModule) (A : Collection) (φ : Frame) : Prop where
  function : φ.function ∈ M.functions
  isDefined : φ.function.isExternal = false
  rest : ∀ I ∈ φ.rest, I ∈ φ.function.insts
  results : ∀ i a, φ.results i = some a → A.MayPoint (A.getValueNodeFor (.instruction i)) a.object
  args : ∀ p a, φ.args p = some a → A.MayPoint (A.getValueNodeFor (.argument p)) a.object

theorem address_mayPoint (ready : A.GlobalsReady M) {c : Constant} (address : c.isAddress M = true)
    {a : Address} (holds : c.eval = some a) :
    A.MayPoint (A.getValueNodeFor (.constant c)) a.object := by
  induction c using Constant.isAddress.induct generalizing a with
  | case2 g =>
    obtain ⟨G, mem, same⟩ := List.any_eq_true.mp address
    have named : G.id = g := by simpa using same
    have isObject : a.object = .global g := by rw [← Option.some.inj holds]
    rw [isObject]
    exact mayPoint_addrOf (named ▸ ready.globals G mem)
  | case4 base offset ih =>
    obtain ⟨a₀, inner, shifted⟩ := Option.map_eq_some_iff.mp holds
    rw [← shifted, Address.shift_object]
    exact ih address inner
  | case5 operand ih => exact ih address holds
  | _ => simp [Constant.eval] at holds

theorem value_mayPoint (ready : A.GlobalsReady M) {φ : Frame} (inv : A.FrameInv M φ) {v : PtrValue}
    (pointer : v.isPointerIn M φ.function = true) {a : Address} (holds : φ.eval v = some a) :
    A.MayPoint (A.getValueNodeFor v) a.object := by
  cases v with
  | instruction i => exact inv.results i a holds
  | argument p => exact inv.args p a holds
  | constant c =>
    cases c with
    | undefPointer => cases holds
    | _ => exact address_mayPoint ready pointer holds
  | scalar => cases holds

theorem pointer_of_holds {φ : Frame} {v : PtrValue} {a : Address} (holds : φ.eval v = some a) :
    v.isPointerTy = true := by
  cases v with
  | constant c =>
    cases c with
    | scalar | aggregateZero | undefAggregate | aggregate => cases holds
    | _ => rfl
  | scalar => cases holds
  | _ => rfl

theorem operand_mayPoint (ready : A.GlobalsReady M) {φ : Frame} (inv : A.FrameInv M φ)
    {v : PtrValue} (operand : v.isOperandIn M φ.function = true) {a : Address}
    (holds : φ.eval v = some a) : A.MayPoint (A.getValueNodeFor v) a.object := by
  have pointer : v.isPointerIn M φ.function = true := by
    simpa [PtrValue.isOperandIn, pointer_of_holds holds] using operand
  exact value_mayPoint ready inv pointer holds

theorem result_mayPoint (collected : A.Collected M) {φ : Frame} (inv : A.FrameInv M φ)
    {memory : Memory}
    (cells : ∀ c a, memory c = some a → A.MayPoint (A.objectNode c.object) a.object)
    {I : PtrInstruction} (mem : I ∈ φ.function.insts) (plain : I.isPlain M φ.function = true)
    (pointer : I.pointerTy = true) {result : Option Address}
    (computes : Computes φ memory I.op result) {a : Address} (holds : result = some a) :
    A.MayPoint (A.getValueNodeFor (.instruction I.id)) a.object := by
  have value := fun {v : PtrValue} => value_mayPoint (v := v) collected.globals.ready inv
  have covers := collected.covers φ.function inv.function inv.isDefined I mem
  unfold Covers at covers
  unfold PtrInstruction.isPlain at plain
  revert computes covers plain
  cases I.op with
  | load p =>
    intro plain computes covers
    cases computes with
    | load address =>
      exact mayPoint_load (covers pointer) (value plain address) (cells _ a holds)
  | getElementPtr base =>
    intro plain computes covers
    simp only [Bool.and_eq_true] at plain
    cases computes
    obtain ⟨a₀, inner, shifted⟩ := Option.map_eq_some_iff.mp holds
    rw [← shifted, Address.shift_object]
    exact mayPoint_copy (covers pointer) (value plain.2 inner)
  | bitCast v =>
    intro plain computes covers
    cases computes
    exact mayPoint_copy (covers pointer) (value (by simpa [pointer] using plain) holds)
  | select v w =>
    intro plain computes covers
    simp only [pointer, Bool.not_true, Bool.false_or, Bool.and_eq_true] at plain
    cases computes with
    | ifTrue => exact mayPoint_copy (covers pointer).1 (value plain.1 holds)
    | ifFalse => exact mayPoint_copy (covers pointer).2 (value plain.2 holds)
  | other =>
    intro _ computes _
    cases computes
    cases holds
  | _ =>
    intro _ computes _
    cases computes

theorem advance_inv {φ : Frame} (inv : A.FrameInv M φ) {I : PtrInstruction}
    {rest : List PtrInstruction} (next : φ.rest = I :: rest) {result : Option Address}
    (sound : I.pointerTy = true → ∀ a, result = some a →
      A.MayPoint (A.getValueNodeFor (.instruction I.id)) a.object) :
    A.FrameInv M (φ.advance I result rest) := by
  refine ⟨inv.function, inv.isDefined, ?_, ?_, inv.args⟩
  · intro J mem
    exact inv.rest J (next ▸ List.mem_cons_of_mem I mem)
  · intro i a holds
    simp only [Frame.advance] at holds
    split at holds
    · rename_i pointer
      by_cases here : i = I.id
      · rw [here, Function.update_self] at holds
        exact here ▸ sound pointer a holds
      · rw [Function.update_of_ne here] at holds
        exact inv.results i a holds
    · exact inv.results i a holds

theorem mem_insts_of_block {F : PtrFunction} {B : PtrBlock} (block : B ∈ F.blocks)
    {I : PtrInstruction} (mem : I ∈ B.insts) : I ∈ F.insts :=
  List.mem_flatMap.mpr ⟨B, block, mem⟩

theorem incoming_mayPoint (collected : A.Collected M) {φ : Frame} (inv : A.FrameInv M φ)
    {I : PtrInstruction} (mem : I ∈ φ.function.insts) (plain : I.isPlain M φ.function = true)
    (pointer : I.pointerTy = true) {a : Address} (holds : φ.incoming I.op = some a) :
    A.MayPoint (A.getValueNodeFor (.instruction I.id)) a.object := by
  have covers := collected.covers φ.function inv.function inv.isDefined I mem
  unfold Covers at covers
  unfold PtrInstruction.isPlain at plain
  revert holds covers plain
  cases I.op with
  | phi edges =>
    intro plain holds covers
    obtain ⟨v, found, held⟩ := Option.bind_eq_some_iff.mp holds
    obtain ⟨edge, isEdge, same⟩ := Option.map_eq_some_iff.mp found
    have edgeMem := List.mem_of_find?_eq_some isEdge
    have plainEdges : ∀ edge ∈ edges, edge.2.isPointerIn M φ.function = true := by
      simpa [pointer] using plain
    rw [← same] at held
    exact mayPoint_copy (covers pointer edge edgeMem)
      (value_mayPoint collected.globals.ready inv (plainEdges edge edgeMem) held)
  | _ =>
    intro _ holds
    cases holds

theorem enter_inv (collected : A.Collected M) (plain : M.Plain) {φ : Frame}
    (inv : A.FrameInv M φ) {B : PtrBlock} (block : B ∈ φ.function.blocks) :
    A.FrameInv M (φ.enter B) := by
  refine ⟨inv.function, inv.isDefined, ?_, ?_, inv.args⟩
  · intro I mem
    exact mem_insts_of_block block ((List.dropWhile_sublist _).mem mem)
  · intro i a holds
    simp only [Frame.enter] at holds
    split at holds
    · rename_i I found
      have named := List.find?_some found
      simp only [Bool.and_eq_true, decide_eq_true_eq] at named
      have mem := mem_insts_of_block block
        ((List.takeWhile_sublist _).mem (List.mem_of_find?_eq_some found))
      rw [← named.1]
      exact incoming_mayPoint collected inv mem (plain.plain _ inv.function inv.isDefined I mem)
        named.2 holds
    · exact inv.results i a holds

theorem start_inv {F : PtrFunction} (defined : F ∈ M.functions) (isDefined : F.isExternal = false)
    {B : PtrBlock} (block : B ∈ F.blocks) {actuals : List (Option Address)}
    (passed : ∀ pair ∈ F.args.zip actuals, pair.1.pointerTy = true → ∀ a, pair.2 = some a →
      A.MayPoint (A.getValueNodeFor (.argument pair.1.id)) a.object) :
    A.FrameInv M (Frame.start F B actuals) := by
  refine ⟨defined, isDefined, fun I mem => mem_insts_of_block block mem,
    (fun i a holds => nomatch holds), ?_⟩
  intro p a holds
  obtain ⟨pair, found, held⟩ := Option.map_eq_some_iff.mp (Option.join_eq_some_iff.mp holds)
  have named := List.find?_some found
  simp only [Bool.and_eq_true, decide_eq_true_eq] at named
  rw [← named.1]
  exact passed pair (List.mem_of_find?_eq_some found) named.2 a held

/-- Every activation but the innermost waits at a call of the one above it. -/
def Waiting (M : PtrModule) : List Frame → Prop
  | φ :: caller :: below =>
    (∃ C after f actuals, caller.rest = C :: after ∧ C.op = .call (.direct f) actuals ∧
      M.function? f = some φ.function) ∧ Waiting M (caller :: below)
  | _ => True

structure StateInv (M : PtrModule) (A : Collection) (s : State) : Prop where
  frames : ∀ φ ∈ s.frames, A.FrameInv M φ
  waiting : Waiting M s.frames
  memory : ∀ c a, s.memory c = some a → A.MayPoint (A.objectNode c.object) a.object

theorem approximates_of_inv (collected : A.Collected M) {s : State} (inv : A.StateInv M s) :
    A.Approximates M s where
  values φ mem _ pointer _ holds :=
    value_mayPoint collected.globals.ready (inv.frames φ mem) pointer holds
  memory := inv.memory

theorem waiting_top {φ ψ : Frame} {below : List Frame} (waiting : Waiting M (φ :: below))
    (same : ψ.function = φ.function) : Waiting M (ψ :: below) := by
  cases below with
  | nil => trivial
  | cons caller below =>
    obtain ⟨⟨C, after, f, actuals, site, op, callee⟩, rest⟩ := waiting
    exact ⟨⟨C, after, f, actuals, site, op, same ▸ callee⟩, rest⟩

theorem top_inv {φ ψ : Frame} {below : List Frame} {memory memory' : Memory} {n n' : Nat}
    (inv : A.StateInv M ⟨φ :: below, memory, n⟩) (top : A.FrameInv M ψ)
    (same : ψ.function = φ.function)
    (cells : ∀ c a, memory' c = some a → A.MayPoint (A.objectNode c.object) a.object) :
    A.StateInv M ⟨ψ :: below, memory', n'⟩ := by
  refine ⟨?_, waiting_top inv.waiting same, cells⟩
  intro χ mem
  rcases List.mem_cons.mp mem with here | there
  · exact here ▸ top
  · exact inv.frames χ (List.mem_cons_of_mem φ there)

section Steps
variable (collected : A.Collected M) (plain : M.Plain) {φ : Frame} (inv : A.FrameInv M φ)
  {I : PtrInstruction} {rest : List PtrInstruction} (next : φ.rest = I :: rest)

include inv next in
theorem next_mem : I ∈ φ.function.insts := inv.rest I (by rw [next]; exact List.mem_cons_self ..)

include collected inv next in
theorem next_covers : A.Covers M φ.function I :=
  collected.covers φ.function inv.function inv.isDefined I (next_mem inv next)

include plain inv next in
theorem next_plain : I.isPlain M φ.function = true :=
  plain.plain φ.function inv.function inv.isDefined I (next_mem inv next)

include collected plain inv next in
theorem store_mayPoint {v p : PtrValue} (op : I.op = .store v p) {memory memory' : Memory}
    (cells : ∀ c a, memory c = some a → A.MayPoint (A.objectNode c.object) a.object)
    {address : Address} (pointer : φ.eval p = some address)
    (stored : Stored memory memory' address (φ.eval v)) (c a : Address)
    (holds : memory' c = some a) : A.MayPoint (A.objectNode c.object) a.object := by
  have covers := next_covers collected inv next
  have isPlain := next_plain plain inv next
  unfold Covers at covers
  unfold PtrInstruction.isPlain at isPlain
  simp only [op, Bool.and_eq_true] at covers isPlain
  by_cases here : c = address
  · rw [here, stored.here] at holds
    exact here ▸ mayPoint_store (covers (pointer_of_holds holds))
      (value_mayPoint collected.globals.ready inv isPlain.1 pointer)
      (operand_mayPoint collected.globals.ready inv isPlain.2 holds)
  · rcases stored.elsewhere c here with kept | lost
    · exact cells c a (kept ▸ holds)
    · rw [lost] at holds
      cases holds

include collected plain inv next in
theorem passed_mayPoint {f : FuncId} {actuals : List PtrValue} (op : I.op = .call (.direct f) actuals)
    {F : PtrFunction} (callee : M.function? f = some F) :
    ∀ pair ∈ F.args.zip (actuals.map φ.eval), pair.1.pointerTy = true → ∀ a, pair.2 = some a →
      A.MayPoint (A.getValueNodeFor (.argument pair.1.id)) a.object := by
  have covers := next_covers collected inv next
  have isPlain := next_plain plain inv next
  unfold Covers at covers
  unfold PtrInstruction.isPlain at isPlain
  simp only [op, callee, Bool.and_eq_true, List.all_eq_true] at covers isPlain
  intro pair mem formal a holds
  rw [List.zip_map_right] at mem
  obtain ⟨⟨argument, actual⟩, mem, same⟩ := List.mem_map.mp mem
  rw [← same] at formal holds ⊢
  exact mayPoint_copy ((covers F rfl).2 _ mem formal (pointer_of_holds holds))
    (operand_mayPoint collected.globals.ready inv (isPlain.2 actual (List.of_mem_zip mem).2) holds)

include collected plain inv next in
theorem returned_mayPoint {value : Option PtrValue} (op : I.op = .ret value) {caller : Frame}
    (callerInv : A.FrameInv M caller) {C : PtrInstruction} {after : List PtrInstruction}
    (site : caller.rest = C :: after) {f : FuncId} {actuals : List PtrValue}
    (call : C.op = .call (.direct f) actuals) (callee : M.function? f = some φ.function)
    (pointer : C.pointerTy = true) (a : Address) (holds : value.bind φ.eval = some a) :
    A.MayPoint (A.getValueNodeFor (.instruction C.id)) a.object := by
  obtain ⟨v, isValue, held⟩ := Option.bind_eq_some_iff.mp holds
  have covers := next_covers collected inv next
  have isPlain := next_plain plain inv next
  have callCovers := next_covers collected callerInv site
  unfold Covers at covers callCovers
  unfold PtrInstruction.isPlain at isPlain
  simp only [op, call, isValue, Bool.and_eq_true] at covers callCovers isPlain
  have returned := mayPoint_copy (covers (pointer_of_holds held))
    (operand_mayPoint collected.globals.ready inv isPlain.2 held)
  exact mayPoint_copy ((callCovers φ.function callee).1 pointer) returned

end Steps

theorem step_inv (collected : A.Collected M) (plain : M.Plain) {s s' : State} (step : Step M s s')
    (inv : A.StateInv M s) : A.StateInv M s' := by
  cases step with
  | compute next computes =>
    have top := inv.frames _ (List.mem_cons_self ..)
    exact top_inv inv (advance_inv top next fun pointer a holds =>
      result_mayPoint collected top inv.memory (next_mem top next) (next_plain plain top next)
        pointer computes holds) rfl inv.memory
  | @alloca φ below memory n I rest next op =>
    have top := inv.frames _ (List.mem_cons_self ..)
    have covers := next_covers collected top next
    unfold Covers at covers
    simp only [op] at covers
    refine top_inv inv (advance_inv top next fun _ a holds => ?_) rfl inv.memory
    rw [← Option.some.inj holds]
    exact mayPoint_addrOf covers
  | store next op pointer stored =>
    have top := inv.frames _ (List.mem_cons_self ..)
    have cells := store_mayPoint collected plain top next op inv.memory pointer stored
    exact top_inv inv (advance_inv top next fun _ a holds => nomatch holds) rfl cells
  | branch next op target block =>
    have top := inv.frames _ (List.mem_cons_self ..)
    exact top_inv inv (enter_inv collected plain top block) rfl inv.memory
  | @call φ below memory n I rest f actuals F B next op callee entry =>
    have top := inv.frames _ (List.mem_cons_self ..)
    have isPlain := next_plain plain top next
    unfold PtrInstruction.isPlain at isPlain
    simp only [op, callee, Bool.and_eq_true] at isPlain
    have start := start_inv (List.mem_of_find?_eq_some callee) (by simpa using isPlain.1.1)
      (List.mem_of_mem_head? entry) (passed_mayPoint collected plain top next op callee)
    refine ⟨?_, ⟨⟨I, rest, f, actuals, next, op, callee⟩, inv.waiting⟩, inv.memory⟩
    intro ψ mem
    rcases List.mem_cons.mp mem with here | there
    · exact here ▸ start
    · exact inv.frames ψ there
  | @ret φ caller below memory n I C rest after value next op site =>
    have top := inv.frames φ (by simp)
    have callerInv := inv.frames caller (by simp)
    obtain ⟨⟨C', after', f, actuals, site', call, callee⟩, below⟩ := inv.waiting
    have same := (List.cons.inj (site.symm.trans site')).1
    have advanced := advance_inv callerInv site fun pointer a holds =>
      returned_mayPoint collected plain top next op callerInv site (same ▸ call) callee pointer a
        holds
    refine ⟨?_, waiting_top below rfl, inv.memory⟩
    intro ψ mem
    rcases List.mem_cons.mp mem with here | there
    · exact here ▸ advanced
    · exact inv.frames ψ (by simp [there])
  | exit next op => exact ⟨(fun ψ mem => nomatch mem), trivial, inv.memory⟩

theorem objectOfConstant_eval {c : Constant} {a : Address} (holds : c.eval = some a) :
    A.nodeFactory.getObjectNodeForConstant c = A.objectNode a.object := by
  induction c using Constant.eval.induct generalizing a with
  | case1 g =>
    rw [← Option.some.inj holds]
    rfl
  | case2 base offset ih =>
    obtain ⟨a₀, inner, shifted⟩ := Option.map_eq_some_iff.mp holds
    rw [← shifted, Address.shift_object]
    exact ih inner
  | case3 operand ih => exact ih holds
  | _ => simp [Constant.eval] at holds

/-- Variables that another definition may override hold no address to begin with. -/
def OverridableNull (M : PtrModule) : Prop :=
  ∀ G ∈ M.globals, G.mayBeOverridden = true → ∀ c, G.initializer = some c →
    ∀ leaf ∈ c.leaves, leaf.eval = none

theorem initialised_mayPoint (collected : A.Collected M) (overridable : OverridableNull M)
    {memory : Memory} (initialised : Initialised M memory) (c a : Address)
    (holds : memory c = some a) : A.MayPoint (A.objectNode c.object) a.object := by
  obtain ⟨G, mem, isObject, init, isInit, leaf, inLeaves, held⟩ := initialised c a holds
  have definitive : G.definitiveInitializer = some init := by
    unfold GlobalVariable.definitiveInitializer
    split
    · rename_i overridden
      rw [overridable G mem overridden init isInit leaf inLeaves] at held
      cases held
    · exact isInit
  rw [isObject]
  apply mayPoint_addrOf
  rw [← objectOfConstant_eval held]
  exact collected.globals.initialised G mem init definitive leaf inLeaves

theorem starts_inv (collected : A.Collected M) (overridable : OverridableNull M) {s : State}
    (starts : Starts M s) : A.StateInv M s := by
  cases starts with
  | start function isDefined entry noPointers initialised =>
    refine ⟨?_, trivial, initialised_mayPoint collected overridable initialised⟩
    intro φ mem
    rw [List.mem_singleton.mp mem]
    exact start_inv function isDefined (List.mem_of_mem_head? entry) (by simp)

theorem reachable_inv (collected : A.Collected M) (plain : M.Plain)
    (overridable : OverridableNull M) {s : State} (reachable : Reachable M s) :
    A.StateInv M s := by
  obtain ⟨s₀, starts, run⟩ := reachable
  induction run with
  | refl => exact starts_inv collected overridable starts
  | tail _ step ih => exact step_inv collected plain step ih

/-- The constraints over-approximate every execution. -/
theorem collectConstraints_approximates (library : LibraryModel) (plain : M.Plain)
    (overridable : OverridableNull M) : ∃ A, collectConstraints library M = some A ∧
      ∀ s, Reachable M s → A.Approximates M s := by
  obtain ⟨A, run, collected⟩ := collectConstraints_spec library plain
  exact ⟨A, run, fun s reachable =>
    approximates_of_inv collected (reachable_inv collected plain overridable reachable)⟩

def noLibrary : LibraryModel := fun A _ _ _ => some (false, A)

def passedThrough : PtrModule where
  globals := [⟨0, some .scalar, false⟩]
  functions := [
    ⟨0, [], false, false, false, [⟨0, [⟨0, true, .alloca⟩,
      ⟨1, false, .store (.constant (.globalValue (.globalVariable 0))) (.instruction 0)⟩,
      ⟨2, true, .load (.instruction 0)⟩, ⟨3, true, .call (.direct 1) [.instruction 2]⟩,
      ⟨4, false, .ret none⟩]⟩]⟩,
    ⟨1, [⟨0, true⟩], true, false, false, [⟨1, [⟨5, false, .ret (some (.argument 0))⟩]⟩]⟩]
  global_nodup := by decide
  func_nodup := by decide
  inst_nodup := by decide
  arg_nodup := by decide

theorem passedThrough_plain : passedThrough.Plain := by
  constructor
  · intro G mem
    simp only [passedThrough, List.mem_cons, List.not_mem_nil, or_false] at mem
    exact ⟨_, by rw [mem], by decide⟩
  · decide

theorem passedThrough_returned : ∃ s, Reachable passedThrough s ∧ ∃ φ ∈ s.frames,
    PtrValue.isPointerIn passedThrough φ.function (.instruction 3) = true ∧
      φ.eval (.instruction 3) = some ⟨.global 0, 0⟩ := by
  let main := passedThrough.functions[0]
  let callee := passedThrough.functions[1]
  let cell : Address := ⟨.stack 0 0, 0⟩
  let empty : Memory := fun _ => none
  let full : Memory := Function.update empty cell (some ⟨.global 0, 0⟩)
  let φ₀ := Frame.start main main.blocks[0] []
  let φ₁ := φ₀.advance main.insts[0] (some cell) (main.insts.drop 1)
  let φ₂ := φ₁.advance main.insts[1] none (main.insts.drop 2)
  let φ₃ := φ₂.advance main.insts[2] (full cell) (main.insts.drop 3)
  let ψ := Frame.start callee callee.blocks[0] ([PtrValue.instruction 2].map φ₃.eval)
  let φ₄ := φ₃.advance main.insts[3] ((some (PtrValue.argument 0)).bind ψ.eval) (main.insts.drop 4)
  have starts : Starts passedThrough ⟨[φ₀], empty, 0⟩ :=
    .start (List.getElem_mem _) rfl rfl (by decide) (fun a v holds => nomatch holds)
  have stored : Stored empty full cell (some ⟨.global 0, 0⟩) :=
    ⟨Function.update_self .., fun b other => Or.inl (Function.update_of_ne other _ _)⟩
  have first : Step passedThrough ⟨[φ₀], empty, 0⟩ ⟨[φ₁], empty, 1⟩ := .alloca rfl rfl
  have second : Step passedThrough ⟨[φ₁], empty, 1⟩ ⟨[φ₂], full, 1⟩ := .store rfl rfl rfl stored
  have third : Step passedThrough ⟨[φ₂], full, 1⟩ ⟨[φ₃], full, 1⟩ := .compute rfl (.load rfl)
  have fourth : Step passedThrough ⟨[φ₃], full, 1⟩ ⟨[ψ, φ₃], full, 1⟩ := .call rfl rfl rfl rfl
  have fifth : Step passedThrough ⟨[ψ, φ₃], full, 1⟩ ⟨[φ₄], full, 1⟩ := .ret rfl rfl rfl
  refine ⟨⟨[φ₄], full, 1⟩, ⟨_, starts, ?_⟩, φ₄, List.mem_cons_self .., rfl, rfl⟩
  exact ((((Relation.ReflTransGen.single first).tail second).tail third).tail fourth).tail fifth

theorem passedThrough_approximated : ∃ A, collectConstraints noLibrary passedThrough = some A ∧
    A.MayPoint (A.getValueNodeFor (.instruction 3)) (.global 0) := by
  obtain ⟨A, run, approximates⟩ := collectConstraints_approximates noLibrary passedThrough_plain
    (fun G mem overridden => by
      rw [List.mem_singleton.mp mem] at overridden
      cases overridden)
  obtain ⟨s, reachable, φ, mem, pointer, holds⟩ := passedThrough_returned
  exact ⟨A, run, (approximates s reachable).values φ mem _ pointer _ holds⟩

def weakPointer : PtrModule where
  globals := [⟨0, some .scalar, false⟩,
    ⟨1, some (.globalValue (.globalVariable 0)), true⟩]
  functions := [⟨0, [], false, false, false, [⟨0, [⟨0, false, .ret none⟩]⟩]⟩]
  global_nodup := by decide
  func_nodup := by decide
  inst_nodup := by decide
  arg_nodup := by decide

theorem weakPointer_plain : weakPointer.Plain := by
  constructor
  · intro G mem
    simp only [weakPointer, List.mem_cons, List.not_mem_nil, or_false] at mem
    rcases mem with rfl | rfl
    · exact ⟨_, rfl, by decide⟩
    · exact ⟨_, rfl, by decide⟩
  · decide

theorem weakPointer_collected : (collectConstraints noLibrary weakPointer).map
    (fun A => (A.constraints, A.objectNode (.global 0), A.objectNode (.global 1))) =
      some ([⟨.ADDR_OF, 0, 1⟩, ⟨.STORE, 1, 1⟩, ⟨.ADDR_OF, 2, 3⟩, ⟨.ADDR_OF, 4, 5⟩,
        ⟨.ADDR_OF, 6, 7⟩, ⟨.COPY, 7, 1⟩], some 5, some 7) := by
  decide +kernel

/-- `@h` holds the address of `@g`, but no constraint says so. -/
theorem weakPointer_missed : weakPointer.Plain ∧
    ¬ ∃ A, collectConstraints noLibrary weakPointer = some A ∧
      ∀ s, Reachable weakPointer s → A.Approximates weakPointer s := by
  refine ⟨weakPointer_plain, ?_⟩
  rintro ⟨A, run, approximates⟩
  have collected := weakPointer_collected
  rw [run, Option.map_some, Option.some.injEq, Prod.mk.injEq, Prod.mk.injEq] at collected
  obtain ⟨constraints, nodeG, nodeH⟩ := collected
  let memory : Memory := fun a => if a = ⟨.global 1, 0⟩ then some ⟨.global 0, 0⟩ else none
  have initialised : Initialised weakPointer memory := by
    intro a v holds
    simp only [memory] at holds
    split at holds
    · rename_i here
      refine ⟨weakPointer.globals[1], List.getElem_mem _, by rw [here]; rfl, _, rfl,
        .globalValue (.globalVariable 0), ?_, holds⟩
      simp [Constant.leaves, Constant.isPointerTy]
    · cases holds
  have starts : Starts weakPointer ⟨[Frame.start weakPointer.functions[0] ⟨0, _⟩ []], memory, 0⟩ :=
    .start (List.getElem_mem _) rfl rfl (by decide) initialised
  obtain ⟨k, b, isK, isB, derived⟩ :=
    (approximates _ ⟨_, starts, .refl⟩).memory ⟨.global 1, 0⟩ ⟨.global 0, 0⟩
      (show memory _ = _ from if_pos rfl)
  rw [← Option.some.inj (nodeH.symm.trans isK), ← Option.some.inj (nodeG.symm.trans isB),
    constraints] at derived
  -- nothing but its address is known of either variable
  have least := @solution_le_targetSets _ [(0, 1), (2, 3), (4, 5), (6, 7)] (by decide) 7 5 derived
  simp [targetSets] at least

end Collection
end ProgramSlicer.Andersen
