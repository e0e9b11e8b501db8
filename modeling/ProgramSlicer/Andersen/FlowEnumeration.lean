import ProgramSlicer.Library.FiniteConstraints
import ProgramSlicer.Andersen.ModuleFlows

/-!
The flows of a module as a finite set that can be computed, and with it a test on the
program: whether it stores something unknown through an unknown pointer.
-/
namespace ProgramSlicer.Andersen
open InclusionConstraints

/-- A set together with a computation of its elements. -/
class Enumerated {α : Type} (s : Set α) where
  elems : Finset α
  mem_elems : ∀ x, x ∈ elems ↔ x ∈ s

section Combinators
variable {α β : Type} [DecidableEq α]

instance : Enumerated (∅ : Set α) where
  elems := ∅
  mem_elems := by simp

instance (s t : Set α) [Enumerated s] [Enumerated t] : Enumerated (s ∪ t) where
  elems := Enumerated.elems s ∪ Enumerated.elems t
  mem_elems := by simp [Enumerated.mem_elems]

instance (l : List β) (f : β → Set α) [∀ x, Enumerated (f x)] : Enumerated (⋃ x ∈ l, f x) where
  elems := l.foldr (fun x rest => Enumerated.elems (f x) ∪ rest) ∅
  mem_elems := by
    intro y
    induction l with
    | nil => simp
    | cons x l ih =>
      rw [List.foldr_cons, Finset.mem_union, ih]
      simp [Enumerated.mem_elems]

instance (o : Option β) (f : β → Set α) [∀ x, Enumerated (f x)] : Enumerated (⋃ x ∈ o, f x) where
  elems := match o with
    | some x => Enumerated.elems (f x)
    | none => ∅
  mem_elems := by cases o <;> simp [Enumerated.mem_elems]

instance (c : Prop) [Decidable c] (s t : Set α) [Enumerated s] [Enumerated t] :
    Enumerated (if c then s else t) where
  elems := if c then Enumerated.elems s else Enumerated.elems t
  mem_elems := by
    intro x
    split <;> exact Enumerated.mem_elems x

instance (t : Set α) [Enumerated t] : Enumerated ((none : Option (Set α)).getD t) :=
  inferInstanceAs (Enumerated t)

instance (c : Prop) [Decidable c] (s t : Set α) (o : Option (Set α)) [Enumerated s]
    [Enumerated (o.getD t)] : Enumerated ((if c then some s else o).getD t) where
  elems := if c then Enumerated.elems s else Enumerated.elems (o.getD t)
  mem_elems := by
    intro x
    split <;> exact Enumerated.mem_elems x

instance (type : ConstraintType) (dest src : Option Place) : Enumerated (flow type dest src) where
  elems := match dest, src with
    | some d, some s => {⟨type, d, s⟩}
    | _, _ => ∅
  mem_elems := by
    intro f
    cases dest with
    | none => simp
    | some d =>
      cases src with
      | none => simp
      | some s => simp [flow_some]

instance (condition : Bool) (flows : Set Flow) [Enumerated flows] :
    Enumerated (flowsIf condition flows) where
  elems := if condition then Enumerated.elems flows else ∅
  mem_elems := by cases condition <;> simp [Enumerated.mem_elems]

end Combinators

section Globals

instance (v : GlobalValue) : Enumerated v.flows :=
  inferInstanceAs (Enumerated (flow .ADDR_OF _ _))

mutual

@[reducible] def Constant.enumerateInto (obj : Option Place) :
    ∀ c : Constant, Enumerated (c.flowsInto obj)
  | .aggregate elements => Constant.enumerateAll obj elements
  | .aggregateZero => inferInstanceAs (Enumerated (flow .COPY obj (some .nullObject)))
  | .undefAggregate | .scalar => inferInstanceAs (Enumerated ∅)
  | .pointerNull => inferInstanceAs (Enumerated (flow .ADDR_OF obj _))
  | .undefPointer => inferInstanceAs (Enumerated (flow .ADDR_OF obj _))
  | .globalValue _ => inferInstanceAs (Enumerated (flow .ADDR_OF obj _))
  | .getElementPtr _ _ => inferInstanceAs (Enumerated (flow .ADDR_OF obj _))
  | .bitCast _ => inferInstanceAs (Enumerated (flow .ADDR_OF obj _))
  | .intToPtr => inferInstanceAs (Enumerated (flow .ADDR_OF obj _))
  | .pointerExpr => inferInstanceAs (Enumerated (flow .ADDR_OF obj _))

@[reducible] def Constant.enumerateAll (obj : Option Place) :
    ∀ cs : List Constant, Enumerated (Constant.flowsInto.allFlows obj cs)
  | [] => inferInstanceAs (Enumerated ∅)
  | c :: rest =>
    have := c.enumerateInto obj
    have := Constant.enumerateAll obj rest
    inferInstanceAs (Enumerated (c.flowsInto obj ∪ Constant.flowsInto.allFlows obj rest))

end

instance (G : GlobalVariable) : Enumerated G.flows where
  elems := match G.definitiveInitializer with
    | some c => (c.enumerateInto (objectPlace (.globalValue (.globalVariable G.id)))).elems
    | none => Enumerated.elems
        (flow .COPY (objectPlace (.globalValue (.globalVariable G.id))) (some .universalObject))
  mem_elems := by
    unfold GlobalVariable.flows
    cases G.definitiveInitializer with
    | none => exact Enumerated.mem_elems
    | some c => exact (c.enumerateInto _).mem_elems

instance (M : PtrModule) : Enumerated M.globalFlows :=
  inferInstanceAs (Enumerated (_ ∪ _ ∪ _))

instance : Enumerated initialFlows where
  elems := {⟨.ADDR_OF, .universalPtr, .universalObject⟩, ⟨.STORE, .universalObject, .universalObject⟩,
    ⟨.ADDR_OF, .nullPtr, .nullObject⟩}
  mem_elems := by simp [initialFlows]

end Globals

section Instructions
variable (names : FuncId → String) (M : PtrModule) (I : PtrInstruction) (args : List PtrValue)

instance (v : PtrValue) : Enumerated v.unknownFlows := inferInstanceAs (Enumerated (flow .COPY _ _))

instance (pair : Argument × PtrValue) : Enumerated (passedFlows pair) := by
  dsimp only [passedFlows]
  infer_instance

instance (F : PtrFunction) : Enumerated (F.argumentFlows args) :=
  inferInstanceAs (Enumerated ((⋃ pair ∈ F.args.zip args, passedFlows pair) ∪ flowsIf _ _))

instance : Enumerated (allocationFlows I args) := by
  dsimp only [allocationFlows]
  infer_instance

instance (k : Nat) : Enumerated (returnedFlows I args k) :=
  inferInstanceAs (Enumerated (flow .COPY _ _))

instance : Enumerated (memcpyFlows I args) where
  elems :=
    (match argumentPlace args 0, argumentPlace args 1 with
    | some dest, some src =>
      {⟨.LOAD, .between dest src, src⟩, ⟨.STORE, dest, .between dest src⟩}
    | _, _ => ∅) ∪
    Enumerated.elems (flowsIf I.pointerTy (flow .COPY I.value.place (argumentPlace args 0)))
  mem_elems := by
    intro f
    unfold memcpyFlows
    rw [Finset.mem_union, Enumerated.mem_elems, Set.mem_union]
    cases argumentPlace args 0 <;> cases argumentPlace args 1 <;> simp [transferFlows]

instance : Enumerated (conversionFlows args) := inferInstanceAs (Enumerated (flowsIf _ _))

instance : Enumerated (vaStartFlows M I args) := inferInstanceAs (Enumerated (flow .ADDR_OF _ _))

instance (F : PtrFunction) (otherwise : Set Flow) [Enumerated otherwise] :
    Enumerated ((libraryFlows names M I args F).getD otherwise) := by
  dsimp only [libraryFlows]
  infer_instance

instance (F : PtrFunction) : Enumerated (directFlows names M I args F) := by
  dsimp only [directFlows]
  infer_instance

instance (F : PtrFunction) : Enumerated (targetFlows names M I args F) := by
  dsimp only [targetFlows]
  infer_instance

instance (callee : Callee) : Enumerated (callFlows names M I args callee) :=
  match callee with
  | .direct f => inferInstanceAs (Enumerated (⋃ F ∈ M.function? f, directFlows names M I args F))
  | .indirect _ => inferInstanceAs (Enumerated
      (flowsIf _ _ ∪ ⋃ F ∈ M.functions, targetFlows names M I args F))

instance (F : PtrFunction) : Enumerated (I.flows names M F) :=
  match I with
  | ⟨_, _, .alloca⟩ => inferInstanceAs (Enumerated (flow .ADDR_OF _ _))
  | ⟨_, _, .call callee args⟩ => inferInstanceAs (Enumerated (callFlows names M _ args callee))
  | ⟨_, _, .ret (some _)⟩ => inferInstanceAs (Enumerated (flowsIf _ (flow .COPY _ _)))
  | ⟨_, _, .load _⟩ => inferInstanceAs (Enumerated (flowsIf _ (flow .LOAD _ _)))
  | ⟨_, _, .store _ _⟩ => inferInstanceAs (Enumerated (flowsIf _ (flow .STORE _ _)))
  | ⟨_, _, .getElementPtr _⟩ => inferInstanceAs (Enumerated (flow .COPY _ _))
  | ⟨id, pointerTy, .phi incoming⟩ => inferInstanceAs (Enumerated (flowsIf pointerTy
      (⋃ edge ∈ incoming, flow .COPY (valuePlace (.instruction id)) edge.2.place)))
  | ⟨_, _, .bitCast _⟩ => inferInstanceAs (Enumerated (flowsIf _ (flow .COPY _ _)))
  | ⟨_, _, .intToPtr (.ptrToInt _)⟩ => inferInstanceAs (Enumerated (flow .COPY _ _))
  | ⟨_, _, .intToPtr (.ptrToIntPlus _)⟩ => inferInstanceAs (Enumerated (flow .COPY _ _))
  | ⟨_, _, .intToPtr .unknown⟩ => inferInstanceAs (Enumerated (flow .COPY _ _))
  | ⟨_, _, .select _ _⟩ =>
    inferInstanceAs (Enumerated (flowsIf _ (flow .COPY _ _ ∪ flow .COPY _ _)))
  | ⟨_, _, .vaArg⟩ => inferInstanceAs (Enumerated (flowsIf _ (flow .COPY _ _)))
  | ⟨_, _, .ret none⟩ => inferInstanceAs (Enumerated ∅)
  | ⟨_, _, .extractValue⟩ => inferInstanceAs (Enumerated ∅)
  | ⟨_, _, .unsupported⟩ => inferInstanceAs (Enumerated ∅)
  | ⟨_, _, .branch _⟩ => inferInstanceAs (Enumerated ∅)
  | ⟨_, _, .other⟩ => inferInstanceAs (Enumerated ∅)

instance (F : PtrFunction) : Enumerated (F.flows names M) :=
  inferInstanceAs (Enumerated (flowsIf _ (⋃ I ∈ F.insts, I.flows names M F)))

instance : Enumerated (M.ownFlows names) :=
  inferInstanceAs (Enumerated (M.globalFlows ∪ ⋃ F ∈ M.functions, F.flows names M))

instance : Enumerated (M.flows names) :=
  inferInstanceAs (Enumerated (initialFlows ∪ M.ownFlows names))

end Instructions

/-- The flows of one type, as pairs of where to and where from. -/
def flowsOfType (type : ConstraintType) (flows : Finset Flow) : Finset (Place × Place) :=
  (flows.filter (·.type = type)).image fun f => (f.dest, f.src)

def finitely (flows : Finset Flow) : Finitely Place where
  addrOf := flowsOfType .ADDR_OF flows
  copy := flowsOfType .COPY flows
  load := flowsOfType .LOAD flows
  store := flowsOfType .STORE flows

/-- Whether the program stores a value that may be unknown through a pointer that may be. -/
def PtrModule.storesUnknown (names : FuncId → String) (M : PtrModule) : Bool :=
  let known := (finitely (Enumerated.elems (M.flows names))).reached
  decide (∃ f ∈ Enumerated.elems (M.ownFlows names), f.type = .STORE ∧
    (f.dest, .universalObject) ∈ known ∧ (f.src, .universalObject) ∈ known)

@[simp] theorem mem_flowsOfType {type : ConstraintType} {flows : Finset Flow} {d s : Place} :
    (d, s) ∈ flowsOfType type flows ↔ ⟨type, d, s⟩ ∈ flows := by
  simp only [flowsOfType, Finset.mem_image, Finset.mem_filter, Prod.mk.injEq]
  constructor
  · rintro ⟨⟨t, d', s'⟩, ⟨mem, rfl⟩, rfl, rfl⟩
    exact mem
  · exact fun mem => ⟨_, ⟨mem, rfl⟩, rfl, rfl⟩

theorem finitely_system (flows : Set Flow) [Enumerated flows] :
    (finitely (Enumerated.elems flows)).system = flowSystem flows := by
  simp [Finitely.system, finitely, flowSystem, Enumerated.mem_elems]

/-- What the rounds find out about the program is its least solution. -/
theorem mem_reached_flows {names : FuncId → String} {M : PtrModule} {p o : Place} :
    (p, o) ∈ (finitely (Enumerated.elems (M.flows names))).reached ↔
      o ∈ solution (flowSystem (M.flows names)) p := by
  rw [Finitely.mem_reached, finitely_system]

end ProgramSlicer.Andersen
