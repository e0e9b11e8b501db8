import ProgramSlicer.Andersen.CollectedFlows

/-!
The values that nodes are created with. The maps of the node factory lead from a value to
its nodes; since each node is in one of them at most once, they can be read backwards.
-/
namespace ProgramSlicer.Andersen
open FoldRules InclusionConstraints AndersNodeFactory

/-- The value that a node is created with. -/
def Slot.entity : Slot → Entity
  | value v | object v => v
  | ret f | vararg f => .globalValue (.function f)

/-- The nodes that may be created with a value. -/
def Entity.slots : Entity → List Slot
  | .globalValue (.function f) =>
    [.value (.globalValue (.function f)), .object (.globalValue (.function f)), .ret f, .vararg f]
  | v => [.value v, .object v]

theorem mem_slots {v : Entity} {k : Slot} : k ∈ v.slots ↔ k.entity = v := by
  cases k with
  | value w | object w =>
    rcases v with i | a | (g | f) <;> simp [Entity.slots, Slot.entity]
  | ret h | vararg h =>
    rcases v with i | a | (g | f) <;> simp [Entity.slots, Slot.entity]

def PtrFunction.entities (F : PtrFunction) : List Entity :=
  .globalValue (.function F.id) ::
    (F.args.map fun a => .argument a.id) ++ F.insts.map fun I => .instruction I.id

def PtrModule.entities (M : PtrModule) : List Entity :=
  (M.globals.map fun G => .globalValue (.globalVariable G.id)) ++
    M.functions.flatMap PtrFunction.entities

/-! ### What has its address taken -/

/-- The universal object, the null object, or memory that belongs to a value. -/
def Place.isMemory : Place → Bool
  | universalObject | nullObject | slot (.object _) | slot (.vararg _) => true
  | _ => false

def TakesMemory (flows : Set Flow) : Prop :=
  ∀ f ∈ flows, f.type = .ADDR_OF → f.src.isMemory = true

section TakesMemory
variable {flows more : Set Flow} {α : Type}

theorem memory_other {type : ConstraintType} {dest src : Option Place} (other : type ≠ .ADDR_OF) :
    TakesMemory (flow type dest src) := fun _ mem address => absurd (mem.1.symm.trans address) other

theorem memory_object {type : ConstraintType} {dest : Option Place} (v : Entity) :
    TakesMemory (flow type dest (objectPlace v)) := by
  intro f mem _
  rw [← Option.some.inj mem.2.2]
  rfl

theorem memory_if {c : Bool} (memory : TakesMemory flows) : TakesMemory (flowsIf c flows) :=
  fun f mem => memory f mem.2

theorem memory_empty : TakesMemory ∅ := nofun

theorem memory_union (one : TakesMemory flows) (two : TakesMemory more) :
    TakesMemory (flows ∪ more) := by
  intro f mem
  rcases mem with here | there
  · exact one f here
  · exact two f there

theorem memory_iUnion {P : α → Prop} {each : α → Set Flow} (memory : ∀ x, TakesMemory (each x)) :
    TakesMemory (⋃ x, ⋃ (_ : P x), each x) := by
  intro f mem
  obtain ⟨x, _, inX⟩ := Set.mem_iUnion₂.mp mem
  exact memory x f inX

theorem pointee_memory (c : Constant) (q : Place) (found : c.pointee = some q) :
    q.isMemory = true := by
  induction c using Constant.pointee.induct with
  | case1 | case2 | case5 =>
    rw [← Option.some.inj found]
    rfl
  | case3 base offset ih => exact ih found
  | case4 operand ih => exact ih found
  | _ => cases found

theorem unknownFlows_memory (v : PtrValue) : TakesMemory v.unknownFlows := memory_other nofun

mutual

theorem flowsInto_memory (obj : Option Place) : ∀ c : Constant, TakesMemory (c.flowsInto obj)
  | .aggregate elements => by
    simp only [Constant.flowsInto]
    exact allFlows_memory obj elements
  | .undefAggregate | .scalar => memory_empty
  | .aggregateZero => by
    simp only [Constant.flowsInto]
    exact memory_other nofun
  | .pointerNull | .undefPointer | .globalValue _ | .getElementPtr _ _ | .bitCast _ | .intToPtr
  | .pointerExpr => by
    simp only [Constant.flowsInto]
    intro f mem _
    exact pointee_memory _ f.src mem.2.2

theorem allFlows_memory (obj : Option Place) :
    ∀ cs : List Constant, TakesMemory (Constant.flowsInto.allFlows obj cs)
  | [] => memory_empty
  | c :: rest => memory_union (flowsInto_memory obj c) (allFlows_memory obj rest)

end

variable (names : FuncId → String) (M : PtrModule) (I : PtrInstruction) (args : List PtrValue)

theorem allocationFlows_memory : TakesMemory (allocationFlows I args) := by
  unfold allocationFlows
  dsimp only
  split
  · exact memory_object _
  · exact memory_other nofun

theorem memcpyFlows_memory : TakesMemory (memcpyFlows I args) := by
  apply memory_union
  · rintro f ⟨dest, src, _, _, rfl | rfl⟩ address
    · cases address
    · cases address
  · exact memory_if (memory_other nofun)

theorem vaStartFlows_memory : TakesMemory (vaStartFlows M I args) := by
  intro f mem _
  obtain ⟨F, _, same⟩ := Option.map_eq_some_iff.mp mem.2.2
  rw [← same]
  rfl

theorem memory_of_table {c : Prop} [Decidable c] {here : Set Flow} {later : Option (Set Flow)}
    (known : (if c then some here else later) = some flows) (memory : TakesMemory here)
    (rest : later = some flows → TakesMemory flows) : TakesMemory flows := by
  split at known
  · exact Option.some.inj known ▸ memory
  · exact rest known

theorem libraryFlows_memory (F : PtrFunction) {flows : Set Flow}
    (known : libraryFlows names M I args F = some flows) : TakesMemory flows := by
  have returned : ∀ k, TakesMemory (returnedFlows I args k) := fun k => memory_other nofun
  apply memory_of_table known memory_empty
  intro known
  apply memory_of_table known (allocationFlows_memory I args)
  intro known
  apply memory_of_table known
  · split
    · exact returned 0
    · exact allocationFlows_memory I args
  intro known
  apply memory_of_table known (returned 0)
  intro known
  apply memory_of_table known (returned 1)
  intro known
  apply memory_of_table known (returned 2)
  intro known
  apply memory_of_table known (memcpyFlows_memory I args)
  intro known
  apply memory_of_table known (memory_if (memory_other nofun))
  intro known
  apply memory_of_table known (vaStartFlows_memory M I args)
  exact fun absent => nomatch absent

theorem getD_memory {known : Option (Set Flow)} {otherwise : Set Flow}
    (memory : ∀ flows, known = some flows → TakesMemory flows) (other : TakesMemory otherwise) :
    TakesMemory (known.getD otherwise) := by
  cases known with
  | none => exact other
  | some flows => exact memory flows rfl

theorem argumentFlows_memory (F : PtrFunction) : TakesMemory (F.argumentFlows args) := by
  apply memory_union
  · refine memory_iUnion fun pair => memory_if ?_
    split
    · exact memory_other nofun
    · exact unknownFlows_memory _
  · exact memory_if (memory_iUnion fun v => memory_if (memory_other nofun))

theorem callFlows_memory (callee : Callee) : TakesMemory (callFlows names M I args callee) := by
  cases callee with
  | direct f =>
    refine memory_iUnion fun F => ?_
    unfold directFlows
    split
    · apply getD_memory fun flows => libraryFlows_memory names M I args F
      apply memory_union (memory_if (unknownFlows_memory _))
      exact memory_iUnion fun v => memory_if (unknownFlows_memory v)
    · exact memory_union (memory_if (memory_other nofun)) (argumentFlows_memory args F)
  | indirect v =>
    apply memory_union (memory_if (unknownFlows_memory _))
    refine memory_iUnion fun F => memory_if ?_
    split
    · apply getD_memory fun flows => libraryFlows_memory names M I args F
      exact memory_iUnion fun v => unknownFlows_memory v
    · exact argumentFlows_memory args F

theorem instructionFlows_memory (F : PtrFunction) : TakesMemory (I.flows names M F) := by
  unfold PtrInstruction.flows
  have copied : ∀ {dest src}, TakesMemory (flow .COPY dest src) := memory_other nofun
  cases I.op with
  | alloca => exact memory_object _
  | call callee args => exact callFlows_memory names M I args callee
  | ret value =>
    cases value with
    | none => exact memory_empty
    | some v => exact memory_if copied
  | load p => exact memory_if (memory_other nofun)
  | store v p => exact memory_if (memory_other nofun)
  | getElementPtr v => exact copied
  | phi incoming => exact memory_if (memory_iUnion fun edge => copied)
  | bitCast v => exact memory_if copied
  | intToPtr operand => cases operand <;> exact copied
  | select v w => exact memory_if (memory_union copied copied)
  | vaArg => exact memory_if copied
  | _ => exact memory_empty

theorem flows_memory : TakesMemory (M.flows names) := by
  have address : ∀ v : GlobalValue, TakesMemory v.flows := fun v => memory_object _
  apply memory_union
  · rintro f (rfl | rfl | rfl) taken
    · rfl
    · cases taken
    · rfl
  apply memory_union
  · apply memory_union
    · apply memory_union
      · exact memory_iUnion fun G => address _
      · exact memory_iUnion fun F => memory_if (address _)
    · refine memory_iUnion fun G => ?_
      unfold GlobalVariable.flows
      dsimp only
      split
      · exact flowsInto_memory _ _
      · exact memory_other nofun
  · exact memory_iUnion fun F => memory_if <|
      memory_iUnion fun I => instructionFlows_memory names M I F

end TakesMemory

namespace Collection
variable {A A' B : Collection} {E : Set Entity}

def TakesFrom (E : Set Entity) (A A' : Collection) : Prop :=
  ∀ k ∈ A'.taken, k ∈ A.taken ∨ k.entity ∈ E

theorem takes_refl (A : Collection) : TakesFrom E A A := fun _ owned => .inl owned

theorem takes_trans (one : TakesFrom E A A') (two : TakesFrom E A' B) : TakesFrom E A B := by
  intro k owned
  rcases two k owned with before | new
  · exact one k before
  · exact .inr new

theorem takes_same (same : A'.node = A.node) : TakesFrom E A A' := by
  intro k owned
  rw [taken, same] at owned
  exact .inl owned

theorem takes_emplace {type : ConstraintType} {dest src : NodeIndex} :
    TakesFrom E A (A.emplace type dest src) := takes_same (node_emplace type dest src)

theorem takes_allocated {k : Slot} (mem : k.entity ∈ E) : TakesFrom E A (A.allocated k) := by
  intro j owned
  by_cases here : j = k
  · exact .inr (here ▸ mem)
  · rw [taken, Set.mem_ofPred_eq, node_allocated_other here] at owned
    exact .inl owned

theorem takes_onlyIf {c : Bool} {f : Collection → Option Collection}
    (run : A.onlyIf c f = some A') (body : f A = some A' → TakesFrom E A A') :
    TakesFrom E A A' := by
  unfold onlyIf at run
  split at run
  · exact body run
  · obtain rfl := Option.some.inj run
    exact takes_refl A

theorem takes_foldlM {α : Type} {f : Collection → α → Option Collection} {l : List α}
    (step : ∀ x ∈ l, ∀ B B', f B x = some B' → TakesFrom E B B')
    (run : l.foldlM f A = some A') : TakesFrom E A A' :=
  foldlM_keeps (P := TakesFrom E A) (fun x mem B B' one before =>
    takes_trans before (step x mem B B' one)) run (takes_refl A)

theorem createValueNode_takes {v : Entity} {n : NodeIndex} (mem : v ∈ E)
    (run : A.createValueNode v = some (n, A')) : TakesFrom E A A' := by
  obtain ⟨⟨m, N⟩, created, same⟩ := bind_some run
  obtain ⟨rfl, rfl⟩ := Prod.mk.inj (Option.some.inj same)
  obtain ⟨_, made⟩ := Option.ite_none_left_eq_some.mp created
  obtain ⟨rfl, rfl⟩ := Prod.mk.inj (Option.some.inj made)
  exact takes_allocated (k := .value v) mem

theorem createObjectNode_takes {v : Entity} {n : NodeIndex} (mem : v ∈ E)
    (run : A.createObjectNode v = some (n, A')) : TakesFrom E A A' := by
  obtain ⟨⟨m, N⟩, created, same⟩ := bind_some run
  obtain ⟨rfl, rfl⟩ := Prod.mk.inj (Option.some.inj same)
  obtain ⟨_, made⟩ := Option.ite_none_left_eq_some.mp created
  obtain ⟨rfl, rfl⟩ := Prod.mk.inj (Option.some.inj made)
  exact takes_allocated (k := .object v) mem

theorem createReturnNode_takes {f : FuncId} (mem : .globalValue (.function f) ∈ E)
    (run : A.createReturnNode f = some A') : TakesFrom E A A' := by
  obtain ⟨N, created, same⟩ := bind_some run
  obtain rfl := Option.some.inj same
  obtain ⟨_, made⟩ := Option.ite_none_left_eq_some.mp created
  obtain rfl := Option.some.inj made
  exact takes_allocated (k := .ret f) mem

theorem createVarargNode_takes {f : FuncId} (mem : .globalValue (.function f) ∈ E)
    (run : A.createVarargNode f = some A') : TakesFrom E A A' := by
  obtain ⟨N, created, same⟩ := bind_some run
  obtain rfl := Option.some.inj same
  obtain ⟨_, made⟩ := Option.ite_none_left_eq_some.mp created
  obtain rfl := Option.some.inj made
  exact takes_allocated (k := .vararg f) mem

theorem copyValue_takes {dst src : PtrValue} (run : A.copyValue dst src = some A') :
    TakesFrom E A A' := by
  obtain ⟨s, _, run⟩ := bind_some run
  obtain ⟨d, _, run⟩ := bind_some run
  obtain rfl := Option.some.inj run
  exact takes_emplace

theorem copyUniversal_takes {dst : PtrValue} (run : A.copyUniversal dst = some A') :
    TakesFrom E A A' := by
  obtain ⟨d, _, run⟩ := bind_some run
  obtain rfl := Option.some.inj run
  exact takes_emplace

/-! ### Globals -/

theorem addAddressable_takes {v : GlobalValue} (mem : .globalValue v ∈ E)
    (run : A.addAddressable v = some A') : TakesFrom E A A' := by
  obtain ⟨⟨n, A₁⟩, value, run⟩ := bind_some run
  obtain ⟨⟨m, A₂⟩, object, run⟩ := bind_some run
  obtain rfl := Option.some.inj run
  exact takes_trans (takes_trans (createValueNode_takes mem value)
    (createObjectNode_takes mem object)) takes_emplace

theorem addFormal_takes {formal : Argument} (mem : .argument formal.id ∈ E)
    (run : A.addFormal formal = some A') : TakesFrom E A A' := by
  refine takes_onlyIf run fun run => ?_
  obtain ⟨⟨n, A₁⟩, value, run⟩ := bind_some run
  obtain rfl := Option.some.inj run
  exact createValueNode_takes mem value

theorem addFunction_takes {M : PtrModule} {F : PtrFunction} (mem : ∀ v ∈ F.entities, v ∈ E)
    (run : A.addFunction M F = some A') : TakesFrom E A A' := by
  have self : .globalValue (.function F.id) ∈ E := mem _ (by simp [PtrFunction.entities])
  obtain ⟨A₁, first, run⟩ := bind_some run
  refine takes_trans (takes_onlyIf first (addAddressable_takes self))
    (takes_onlyIf run fun run => ?_)
  obtain ⟨A₂, ret, run⟩ := bind_some run
  obtain ⟨A₃, vararg, run⟩ := bind_some run
  refine takes_trans (takes_onlyIf ret (createReturnNode_takes self))
    (takes_trans (takes_onlyIf vararg (createVarargNode_takes self)) ?_)
  refine takes_foldlM (fun formal inArgs _ _ => addFormal_takes (mem _ ?_)) run
  exact List.mem_append_left _ (List.mem_cons_of_mem _ (List.mem_map.mpr ⟨formal, inArgs, rfl⟩))

theorem initGlobal_takes {G : GlobalVariable} (run : A.initGlobal G = some A') :
    TakesFrom E A A' := by
  obtain ⟨o, isObj, run⟩ := bind_some run
  split at run
  · exact takes_same (addGlobalInitializerConstraints_adds _
      (finds_slot (k := .object (.globalValue (.globalVariable G.id))) isObj) run).1
  · obtain rfl := Option.some.inj run
    exact takes_emplace

theorem collectConstraintsForGlobals_takes {M : PtrModule} (mem : ∀ v ∈ M.entities, v ∈ E)
    (run : A.collectConstraintsForGlobals M = some A') : TakesFrom E A A' := by
  obtain ⟨A₁, globals, run⟩ := bind_some run
  obtain ⟨A₂, functions, run⟩ := bind_some run
  refine takes_trans (takes_foldlM (fun G here _ _ => addAddressable_takes (mem _ ?_)) globals)
    (takes_trans (takes_foldlM (fun F here _ _ => addFunction_takes fun v inF => mem v ?_) functions)
      (takes_foldlM (fun _ _ _ _ => initGlobal_takes) run))
  · exact List.mem_append_left _ (List.mem_map.mpr ⟨G, here, rfl⟩)
  · exact List.mem_append_right _ (List.mem_flatMap.mpr ⟨F, here, inF⟩)

/-! ### Instructions -/

section Calls
variable {names : FuncId → String} {M : PtrModule} {I : PtrInstruction} {args : List PtrValue}
  {F : PtrFunction}

theorem addArgumentConstraintForCall_takes (run : A.addArgumentConstraintForCall args F = some A') :
    TakesFrom E A A' := by
  obtain ⟨A₁, formals, run⟩ := bind_some run
  refine takes_trans (takes_foldlM (fun pair _ B B' run => ?_) formals)
    (takes_onlyIf run (takes_foldlM fun v _ B B' run => ?_))
  · refine takes_onlyIf run fun run => ?_
    split at run
    · exact copyValue_takes run
    · exact copyUniversal_takes run
  · refine takes_onlyIf run fun run => ?_
    obtain ⟨a, _, run⟩ := bind_some run
    obtain ⟨va, _, run⟩ := bind_some run
    obtain rfl := Option.some.inj run
    exact takes_emplace

theorem addAllocation_takes (mem : .instruction I.id ∈ E)
    (run : A.addAllocation names I args = some A') : TakesFrom E A A' := by
  obtain ⟨⟨n, A₁⟩, created, run⟩ := bind_some run
  refine takes_trans (createObjectNode_takes mem created) ?_
  dsimp only at run
  split at run
  · obtain rfl := Option.some.inj run
    exact takes_emplace
  · obtain ⟨name, _, run⟩ := bind_some run
    obtain ⟨_, run⟩ := Option.ite_none_right_eq_some.mp run
    obtain ⟨arg, _, run⟩ := bind_some run
    obtain ⟨p, _, run⟩ := bind_some run
    obtain rfl := Option.some.inj run
    exact takes_emplace

theorem addReturnedArg_takes {k : Nat} (run : A.addReturnedArg I args k = some A') :
    TakesFrom E A A' := by
  obtain ⟨r, _, run⟩ := bind_some run
  obtain ⟨arg, _, run⟩ := bind_some run
  obtain ⟨n, _, run⟩ := bind_some run
  obtain rfl := Option.some.inj run
  exact takes_emplace

theorem addMemcpy_takes (run : A.addMemcpy I args = some A') : TakesFrom E A A' := by
  rw [addMemcpy_eq] at run
  obtain ⟨dest, _, run⟩ := bind_some run
  obtain ⟨src, _, rfl⟩ := Option.map_eq_some_iff.mp run
  exact takes_same (node_withCopy dest src)

theorem addConversion_takes (run : A.addConversion args = some A') : TakesFrom E A A' := by
  obtain ⟨arg, _, run⟩ := bind_some run
  refine takes_onlyIf run fun run => ?_
  obtain ⟨arg', _, run⟩ := bind_some run
  obtain ⟨d, _, run⟩ := bind_some run
  obtain ⟨s, _, run⟩ := bind_some run
  obtain rfl := Option.some.inj run
  exact takes_emplace

theorem addVaStart_takes (run : A.addVaStart M I args = some A') : TakesFrom E A A' := by
  obtain ⟨G, _, run⟩ := bind_some run
  obtain ⟨_, run⟩ := Option.ite_none_right_eq_some.mp run
  obtain ⟨arg, _, run⟩ := bind_some run
  obtain ⟨d, _, run⟩ := bind_some run
  obtain ⟨va, _, run⟩ := bind_some run
  obtain rfl := Option.some.inj run
  exact takes_emplace

theorem library_takes (mem : .instruction I.id ∈ E) {handled : Bool}
    (run : addConstraintForExternalLibrary names M A I args F = some (handled, A')) :
    TakesFrom E A A' := by
  have mapped : ∀ {x : Option Collection}, x.map (true, ·) = some (handled, A') →
      x = some A' := by
    intro x same
    obtain ⟨B, found, pair⟩ := Option.map_eq_some_iff.mp same
    rw [found, (Prod.mk.inj pair).2]
  unfold addConstraintForExternalLibrary at run
  dsimp only at run
  obtain ⟨_, run⟩ := Option.ite_none_left_eq_some.mp run
  split at run
  · obtain ⟨_, rfl⟩ := Prod.mk.inj (Option.some.inj run)
    exact takes_refl A
  split at run
  · exact addAllocation_takes mem (mapped run)
  split at run
  · obtain ⟨arg, _, run⟩ := bind_some run
    split at run
    · obtain ⟨B, made, run⟩ := bind_some run
      obtain ⟨_, rfl⟩ := Prod.mk.inj (Option.some.inj run)
      exact addReturnedArg_takes made
    · obtain ⟨B, made, run⟩ := bind_some run
      obtain ⟨_, rfl⟩ := Prod.mk.inj (Option.some.inj run)
      exact addAllocation_takes mem made
  split at run
  · exact addReturnedArg_takes (mapped run)
  split at run
  · exact addReturnedArg_takes (mapped run)
  split at run
  · exact addReturnedArg_takes (mapped run)
  split at run
  · exact addMemcpy_takes (mapped run)
  split at run
  · exact addConversion_takes (mapped run)
  split at run
  · exact addVaStart_takes (mapped run)
  · obtain ⟨_, rfl⟩ := Prod.mk.inj (Option.some.inj run)
    exact takes_refl A

theorem addDirectCall_takes (mem : .instruction I.id ∈ E)
    (run : A.addDirectCall (addConstraintForExternalLibrary names M) I args F = some A') :
    TakesFrom E A A' := by
  unfold addDirectCall at run
  split at run
  · obtain ⟨⟨handled, A₁⟩, library, run⟩ := bind_some run
    refine takes_trans (library_takes mem library) (takes_onlyIf run fun run => ?_)
    obtain ⟨A₂, first, run⟩ := bind_some run
    refine takes_trans (takes_onlyIf first copyUniversal_takes) ?_
    exact takes_foldlM (fun v _ B B' run => takes_onlyIf run copyUniversal_takes) run
  · obtain ⟨A₁, first, run⟩ := bind_some run
    refine takes_trans (takes_onlyIf first fun run => ?_) (addArgumentConstraintForCall_takes run)
    obtain ⟨r, _, run⟩ := bind_some run
    obtain ⟨fr, _, run⟩ := bind_some run
    obtain rfl := Option.some.inj run
    exact takes_emplace

theorem addIndirectTarget_takes (mem : .instruction I.id ∈ E)
    (run : addIndirectTarget (addConstraintForExternalLibrary names M) I args A F = some A') :
    TakesFrom E A A' := by
  unfold addIndirectTarget at run
  split at run
  · obtain rfl := Option.some.inj run
    exact takes_refl A
  split at run
  · obtain rfl := Option.some.inj run
    exact takes_refl A
  split at run
  · obtain ⟨⟨handled, A₁⟩, library, run⟩ := bind_some run
    refine takes_trans (library_takes mem library) (takes_onlyIf run fun run => ?_)
    exact takes_foldlM (fun v _ B B' => copyUniversal_takes) run
  · exact addArgumentConstraintForCall_takes run

theorem addConstraintForCall_takes (mem : .instruction I.id ∈ E) {callee : Callee}
    (run : A.addConstraintForCall (addConstraintForExternalLibrary names M) M I args callee =
      some A') : TakesFrom E A A' := by
  cases callee with
  | direct f =>
    obtain ⟨F, _, run⟩ := bind_some run
    exact addDirectCall_takes mem run
  | indirect v =>
    obtain ⟨A₁, first, run⟩ := bind_some run
    refine takes_trans (takes_onlyIf first copyUniversal_takes) ?_
    exact takes_foldlM (fun F _ B B' => addIndirectTarget_takes mem) run

theorem collectConstraintsForInstruction_takes (mem : .instruction I.id ∈ E)
    (run : A.collectConstraintsForInstruction (addConstraintForExternalLibrary names M) M F I =
      some A') : TakesFrom E A A' := by
  unfold collectConstraintsForInstruction at run
  cases op : I.op with
  | alloca =>
    rw [op] at run
    obtain ⟨val, _, run⟩ := bind_some run
    obtain ⟨⟨obj, B⟩, created, run⟩ := bind_some run
    obtain rfl := Option.some.inj run
    exact takes_trans (createObjectNode_takes mem created) takes_emplace
  | call callee args =>
    rw [op] at run
    exact addConstraintForCall_takes mem run
  | ret value =>
    rw [op] at run
    cases value with
    | none =>
      obtain rfl := Option.some.inj run
      exact takes_refl A
    | some v =>
      refine takes_onlyIf run fun run => ?_
      obtain ⟨r, _, run⟩ := bind_some run
      obtain ⟨n, _, run⟩ := bind_some run
      obtain rfl := Option.some.inj run
      exact takes_emplace
  | load p | store v p | vaArg =>
    rw [op] at run
    refine takes_onlyIf run fun run => ?_
    obtain ⟨d, _, run⟩ := bind_some run
    obtain ⟨s, _, run⟩ := bind_some run
    obtain rfl := Option.some.inj run
    exact takes_emplace
  | getElementPtr base =>
    rw [op] at run
    obtain ⟨_, run⟩ := Option.ite_none_right_eq_some.mp run
    exact copyValue_takes run
  | phi incoming =>
    rw [op] at run
    refine takes_onlyIf run fun run => ?_
    obtain ⟨n, _, run⟩ := bind_some run
    exact takes_foldlM (fun edge _ B B' => copyValue_takes) run
  | bitCast v =>
    rw [op] at run
    exact takes_onlyIf run copyValue_takes
  | intToPtr operand =>
    rw [op] at run
    cases operand with
    | unknown =>
      obtain ⟨_, run⟩ := Option.ite_none_right_eq_some.mp run
      exact copyUniversal_takes run
    | _ =>
      obtain ⟨_, run⟩ := Option.ite_none_right_eq_some.mp run
      exact copyValue_takes run
  | select v w =>
    rw [op] at run
    refine takes_onlyIf run fun run => ?_
    obtain ⟨s, _, run⟩ := bind_some run
    obtain ⟨s', _, run⟩ := bind_some run
    obtain ⟨d, _, run⟩ := bind_some run
    obtain rfl := Option.some.inj run
    exact takes_trans takes_emplace takes_emplace
  | unsupported =>
    rw [op] at run
    cases run
  | _ =>
    rw [op] at run
    obtain ⟨_, same⟩ := Option.ite_none_left_eq_some.mp run
    obtain rfl := Option.some.inj same
    exact takes_refl A

theorem collectConstraintsForFunction_takes (mem : ∀ v ∈ F.entities, v ∈ E)
    (run : A.collectConstraintsForFunction (addConstraintForExternalLibrary names M) M F =
      some A') : TakesFrom E A A' := by
  have inst : ∀ I ∈ F.insts, .instruction I.id ∈ E := fun I here =>
    mem _ (List.mem_append_right _ (List.mem_map.mpr ⟨I, here, rfl⟩))
  refine takes_onlyIf run fun run => ?_
  obtain ⟨A₁, nodes, run⟩ := bind_some run
  refine takes_trans (takes_foldlM (fun I here B B' run => takes_onlyIf run fun run => ?_) nodes)
    (takes_foldlM (fun I here B B' => collectConstraintsForInstruction_takes (inst I here)) run)
  obtain ⟨⟨n, B₁⟩, created, run⟩ := bind_some run
  obtain rfl := Option.some.inj run
  exact createValueNode_takes (inst I here) created

theorem collectConstraints_entities
    (run : collectConstraints (addConstraintForExternalLibrary names M) M = some A) {k : Slot}
    {n : NodeIndex} (found : A.node k = some n) : k.entity ∈ M.entities := by
  obtain ⟨A₁, first, run⟩ := bind_some run
  have all : TakesFrom {v | v ∈ M.entities} initial A :=
    takes_trans (collectConstraintsForGlobals_takes (fun v mem => mem) first)
      (takes_foldlM (fun F here _ _ => collectConstraintsForFunction_takes fun v inF =>
        List.mem_append_right _ (List.mem_flatMap.mpr ⟨F, here, inF⟩)) run)
  rcases all k (taken_iff.mpr ⟨n, found⟩) with before | here
  · cases k <;> simp [taken, node, initial, NodeMaps.start] at before
  · exact here

end Calls
end Collection
end ProgramSlicer.Andersen
