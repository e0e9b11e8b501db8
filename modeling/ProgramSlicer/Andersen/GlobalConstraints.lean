import ProgramSlicer.Andersen.ConstraintCollect
import ProgramSlicer.Library.FoldRules

/-!
What `collectConstraintsForGlobals` leaves behind. Collecting only adds nodes and
constraints, so a constraint can be read with the nodes that there are at the
end; each function of the pass has one lemma that says when it comes through
and what is there afterwards.
-/
namespace ProgramSlicer.Andersen
open FoldRules AndersNodeFactory

/-- The entries of the node factory's four maps. -/
inductive Slot where
  | value (v : Entity)
  | object (v : Entity)
  | ret (f : FuncId)
  | vararg (f : FuncId)
deriving DecidableEq

namespace Collection
variable {A A' B : Collection}

def node (A : Collection) : Slot → Option NodeIndex
  | .value v => A.nodeFactory.valueNodeMap v
  | .object v => A.nodeFactory.objNodeMap v
  | .ret f => A.nodeFactory.returnMap f
  | .vararg f => A.nodeFactory.varargMap f

def taken (A : Collection) : Set Slot := {k | (A.node k).isSome = true}

/-- Nodes keep their indices and constraints stay. -/
instance : Preorder Collection where
  le A A' := (∀ k n, A.node k = some n → A'.node k = some n) ∧ A.constraints ⊆ A'.constraints
  le_refl A := ⟨fun _ _ h => h, List.Subset.refl _⟩
  le_trans _ _ _ one two := ⟨fun k n h => two.1 k n (one.1 k n h), List.Subset.trans one.2 two.2⟩

theorem node_mono (le : A ≤ A') {k : Slot} {n : NodeIndex} (found : A.node k = some n) :
    A'.node k = some n := le.1 k n found

theorem taken_iff {k : Slot} : k ∈ A.taken ↔ ∃ n, A.node k = some n := Option.isSome_iff_exists

theorem taken_mono (le : A ≤ A') : A.taken ⊆ A'.taken := by
  intro k before
  obtain ⟨n, found⟩ := taken_iff.mp before
  exact taken_iff.mpr ⟨n, node_mono le found⟩

theorem valueOfConstant_mono (le : A ≤ A') {c : Constant} {n : NodeIndex}
    (found : A.nodeFactory.getValueNodeForConstant c = some n) :
    A'.nodeFactory.getValueNodeForConstant c = some n := by
  induction c using NodeMaps.getValueNodeForConstant.induct with
  | case3 v => exact node_mono (k := .value (.globalValue v)) le found
  | case4 base offset ih => exact ih found
  | case5 operand ih => exact ih found
  | _ => exact found

theorem objectOfConstant_mono (le : A ≤ A') {c : Constant} {n : NodeIndex}
    (found : A.nodeFactory.getObjectNodeForConstant c = some n) :
    A'.nodeFactory.getObjectNodeForConstant c = some n := by
  induction c using NodeMaps.getObjectNodeForConstant.induct with
  | case2 v => exact node_mono (k := .object (.globalValue v)) le found
  | case3 base offset ih => exact ih found
  | case4 operand ih => exact ih found
  | _ => exact found

theorem value_mono (le : A ≤ A') {v : PtrValue} {n : NodeIndex}
    (found : A.getValueNodeFor v = some n) : A'.getValueNodeFor v = some n := by
  cases v with
  | instruction i => exact node_mono (k := .value (.instruction i)) le found
  | argument a => exact node_mono (k := .value (.argument a)) le found
  | constant c => exact valueOfConstant_mono le found
  | scalar => cases found

def Joined (A : Collection) (type : ConstraintType) (dest src : Option NodeIndex) : Prop :=
  ∃ d s, dest = some d ∧ src = some s ∧ ⟨type, d, s⟩ ∈ A.constraints

theorem joined_mono (le : A ≤ A') {type : ConstraintType} {dest src dest' src' : Option NodeIndex}
    (joined : A.Joined type dest src) (sameDest : ∀ n, dest = some n → dest' = some n)
    (sameSrc : ∀ n, src = some n → src' = some n) : A'.Joined type dest' src' := by
  obtain ⟨d, s, hd, hs, mem⟩ := joined
  exact ⟨d, s, sameDest d hd, sameSrc s hs, le.2 mem⟩

@[simp] theorem node_emplace (type : ConstraintType) (dest src : NodeIndex) :
    (A.emplace type dest src).node = A.node := by
  funext k
  cases k <;> rfl

@[simp] theorem taken_emplace (type : ConstraintType) (dest src : NodeIndex) :
    (A.emplace type dest src).taken = A.taken := by
  unfold taken
  rw [node_emplace]

theorem le_emplace (type : ConstraintType) (dest src : NodeIndex) :
    A ≤ A.emplace type dest src :=
  ⟨fun k n found => by rw [node_emplace]; exact found, List.subset_append_left _ _⟩

theorem mem_emplace (type : ConstraintType) (dest src : NodeIndex) :
    ⟨type, dest, src⟩ ∈ (A.emplace type dest src).constraints := by
  simp [emplace]

/-- What a phase makes: it comes through, from the slots it may take. -/
structure Makes (A A' : Collection) (slots : Set Slot) : Prop where
  le : A ≤ A'
  taken : A'.taken ⊆ A.taken ∪ slots

theorem makes_refl (slots : Set Slot) : A.Makes A slots := ⟨le_refl A, Set.subset_union_left⟩

theorem makes_trans {slots : Set Slot} (one : A.Makes A' slots) (two : A'.Makes B slots) :
    A.Makes B slots := by
  constructor
  · exact one.le.trans two.le
  · intro k owned
    rcases two.taken owned with before | here
    · exact one.taken before
    · exact Or.inr here

theorem makes_wider {slots wider : Set Slot} (one : A.Makes A' slots) (sub : slots ⊆ wider) :
    A.Makes A' wider := ⟨one.le, one.taken.trans (Set.union_subset_union_right _ sub)⟩

theorem makes_emplace (type : ConstraintType) (dest src : NodeIndex) (slots : Set Slot) :
    A.Makes (A.emplace type dest src) slots := by
  constructor
  · exact le_emplace type dest src
  · rw [taken_emplace]
    exact Set.subset_union_left

theorem free_after {slots : Set Slot} {k : Slot} (one : A.Makes A' slots) (free : k ∉ A.taken)
    (other : k ∉ slots) : k ∉ A'.taken := by
  intro owned
  rcases one.taken owned with before | here
  · exact free before
  · exact other here

theorem grown_by {k : Slot} (free : k ∉ A.taken)
    (same : ∀ j, j ≠ k → A'.node j = A.node j) (kept : A'.constraints = A.constraints) :
    A.Makes A' {k} := by
  constructor
  · constructor
    · intro j m found
      by_cases here : j = k
      · exact absurd (taken_iff.mpr ⟨m, here ▸ found⟩) free
      · rw [same j here]
        exact found
    · rw [kept]
      exact List.Subset.refl _
  · intro j found
    by_cases here : j = k
    · exact Or.inr here
    · obtain ⟨m, found⟩ := taken_iff.mp found
      rw [same j here] at found
      exact Or.inl (taken_iff.mpr ⟨m, found⟩)

def allocated (A : Collection) (k : Slot) : Collection :=
  let N := A.nodeFactory
  let nodes := { N with numNodes := N.numNodes + 1 }
  { A with nodeFactory :=
      match k with
      | .value v => { nodes with valueNodeMap := Function.update N.valueNodeMap v (some N.numNodes) }
      | .object v => { nodes with objNodeMap := Function.update N.objNodeMap v (some N.numNodes) }
      | .ret f => { nodes with returnMap := Function.update N.returnMap f (some N.numNodes) }
      | .vararg f => { nodes with varargMap := Function.update N.varargMap f (some N.numNodes) } }

theorem node_allocated (A : Collection) (k : Slot) :
    (A.allocated k).node k = some A.nodeFactory.numNodes := by
  cases k <;> exact Function.update_self ..

theorem node_allocated_other {k j : Slot} (other : j ≠ k) :
    (A.allocated k).node j = A.node j := by
  cases k <;> cases j <;>
    first
    | rfl
    | exact Function.update_of_ne (fun same => other (by rw [same])) _ _

theorem makes_allocated {k : Slot} (free : k ∉ A.taken) : A.Makes (A.allocated k) {k} :=
  grown_by free (fun _ => node_allocated_other) rfl

theorem createValueNode_spec {v : Entity} (free : .value v ∉ A.taken) :
    ∃ n A', A.createValueNode v = some (n, A') ∧ A'.node (.value v) = some n ∧
      A.Makes A' {.value v} := by
  have absent : (A.nodeFactory.valueNodeMap v).isSome = false := by simpa [taken, node] using free
  refine ⟨_, A.allocated (.value v), ?_, node_allocated A _, makes_allocated free⟩
  simp [createValueNode, NodeMaps.createValueNode, absent, allocated]

theorem createObjectNode_spec {v : Entity} (free : .object v ∉ A.taken) :
    ∃ n A', A.createObjectNode v = some (n, A') ∧ A'.node (.object v) = some n ∧
      A.Makes A' {.object v} := by
  have absent : (A.nodeFactory.objNodeMap v).isSome = false := by simpa [taken, node] using free
  refine ⟨_, A.allocated (.object v), ?_, node_allocated A _, makes_allocated free⟩
  simp [createObjectNode, NodeMaps.createObjectNode, absent, allocated]

theorem createReturnNode_spec {f : FuncId} (free : .ret f ∉ A.taken) :
    ∃ A', A.createReturnNode f = some A' ∧ .ret f ∈ A'.taken ∧ A.Makes A' {.ret f} := by
  have absent : (A.nodeFactory.returnMap f).isSome = false := by simpa [taken, node] using free
  refine ⟨A.allocated (.ret f), ?_, taken_iff.mpr ⟨_, node_allocated A _⟩, makes_allocated free⟩
  simp [createReturnNode, NodeMaps.createReturnNode, absent, allocated]

theorem createVarargNode_spec {f : FuncId} (free : .vararg f ∉ A.taken) :
    ∃ A', A.createVarargNode f = some A' ∧ .vararg f ∈ A'.taken ∧ A.Makes A' {.vararg f} := by
  have absent : (A.nodeFactory.varargMap f).isSome = false := by simpa [taken, node] using free
  refine ⟨A.allocated (.vararg f), ?_, taken_iff.mpr ⟨_, node_allocated A _⟩, makes_allocated free⟩
  simp [createVarargNode, NodeMaps.createVarargNode, absent, allocated]

theorem onlyIf_spec {f : Collection → Option Collection} {K : Set Slot} {c : Bool}
    {D : Collection → Prop} (step : c = true → ∃ A', f A = some A' ∧ A.Makes A' K ∧ D A') :
    ∃ A', A.onlyIf c f = some A' ∧ A.Makes A' K ∧ (c = true → D A') := by
  unfold onlyIf
  cases c with
  | false => exact ⟨A, rfl, makes_refl K, fun absurd => nomatch absurd⟩
  | true =>
    obtain ⟨A', run, makes, done⟩ := step rfl
    exact ⟨A', run, makes, fun _ => done⟩

def addressable (v : GlobalValue) : Set Slot := {.value (.globalValue v), .object (.globalValue v)}

theorem addAddressable_spec {v : GlobalValue} (free : Disjoint A.taken (addressable v)) :
    ∃ A', A.addAddressable v = some A' ∧ A.Makes A' (addressable v) ∧
      A'.Joined .ADDR_OF (A'.node (.value (.globalValue v))) (A'.node (.object (.globalValue v))) := by
  have freeValue : .value (.globalValue v) ∉ A.taken :=
    Set.disjoint_right.mp free (Or.inl rfl)
  have freeObject : .object (.globalValue v) ∉ A.taken :=
    Set.disjoint_right.mp free (Or.inr rfl)
  obtain ⟨val, A₁, first, valNode, makes₁⟩ := createValueNode_spec freeValue
  obtain ⟨obj, A₂, second, objNode, makes₂⟩ :=
    createObjectNode_spec (free_after makes₁ freeObject (by simp))
  refine ⟨A₂.emplace .ADDR_OF val obj, ?_, ?_, val, obj, ?_, ?_, mem_emplace ..⟩
  · simp [addAddressable, first, second]
  · apply makes_trans (makes_wider makes₁ _) (makes_trans (makes_wider makes₂ _) (makes_emplace ..))
    · exact Set.singleton_subset_iff.mpr (Or.inl rfl)
    · exact Set.singleton_subset_iff.mpr (Or.inr rfl)
  · rw [node_emplace]
    exact node_mono makes₂.le valNode
  · rw [node_emplace]
    exact objNode

theorem addFormal_spec {formal : Argument} (free : .value (.argument formal.id) ∉ A.taken) :
    ∃ A', A.addFormal formal = some A' ∧ A.Makes A' {.value (.argument formal.id)} ∧
      (formal.pointerTy = true → .value (.argument formal.id) ∈ A'.taken) := by
  apply onlyIf_spec
  intro _
  obtain ⟨n, A', run, new, makes⟩ := createValueNode_spec free
  exact ⟨A', by simp [run], makes, taken_iff.mpr ⟨n, new⟩⟩

theorem addFormals_spec {formals : List Argument} (nodup : (formals.map (·.id)).Nodup)
    (free : ∀ formal ∈ formals, .value (.argument formal.id) ∉ A.taken) :
    ∃ A', formals.foldlM addFormal A = some A' ∧
      A.Makes A' (⋃ formal ∈ formals, {.value (.argument formal.id)}) ∧
      ∀ formal ∈ formals, formal.pointerTy = true → .value (.argument formal.id) ∈ A'.taken := by
  obtain ⟨A', run, le, keys, done⟩ := foldlM_allocates (f := addFormal) (l := formals) (s := A)
    (D := fun formal A => formal.pointerTy = true → .value (.argument formal.id) ∈ A.taken)
    (fun formal _ B _ free => by
      obtain ⟨B', run, makes, done⟩ := addFormal_spec (Set.disjoint_singleton_right.mp free)
      exact ⟨B', run, makes.le, makes.taken, done⟩)
    (fun formal _ B B' le done isPointer => taken_mono le (done isPointer))
    ((List.pairwise_map.mp nodup).imp fun other => by simpa using other)
    (fun formal mem => Set.disjoint_singleton_right.mpr (free formal mem))
  exact ⟨A', run, ⟨le, keys⟩, done⟩

/-- The slots that a function with a body may take. -/
def bodySlots (F : PtrFunction) : Set Slot :=
  {.ret F.id, .vararg F.id} ∪ ⋃ formal ∈ F.args, {.value (.argument formal.id)}

def functionSlots (F : PtrFunction) : Set Slot := addressable (.function F.id) ∪ bodySlots F

structure BodyReady (F : PtrFunction) (A : Collection) : Prop where
  result : F.returnsPointer = true → .ret F.id ∈ A.taken
  varargs : F.isVarArg = true → .vararg F.id ∈ A.taken
  formals : ∀ formal ∈ F.args, formal.pointerTy = true → .value (.argument formal.id) ∈ A.taken

theorem bodyReady_mono {F : PtrFunction} (le : A ≤ A') (ready : A.BodyReady F) :
    A'.BodyReady F where
  result pointer := taken_mono le (ready.result pointer)
  varargs variadic := taken_mono le (ready.varargs variadic)
  formals formal mem pointer := taken_mono le (ready.formals formal mem pointer)

theorem addFunctionBody_spec {F : PtrFunction} (free : Disjoint A.taken (bodySlots F))
    (nodup : (F.args.map (·.id)).Nodup) :
    ∃ A', A.addFunctionBody F = some A' ∧ A.Makes A' (bodySlots F) ∧ A'.BodyReady F := by
  have apart := Set.disjoint_right.mp free
  have ret : {.ret F.id} ⊆ bodySlots F := fun k mem => Or.inl (Or.inl mem)
  have vararg : {.vararg F.id} ⊆ bodySlots F := fun k mem => Or.inl (Or.inr mem)
  have formals : (⋃ formal ∈ F.args, {.value (.argument formal.id)}) ⊆ bodySlots F :=
    fun k mem => Or.inr mem
  obtain ⟨A₁, run₁, makes₁, done₁⟩ := onlyIf_spec (A := A) (c := F.returnsPointer)
    (f := (·.createReturnNode F.id)) fun _ => by
      obtain ⟨A', run, new, makes⟩ := createReturnNode_spec (apart (ret rfl))
      exact ⟨A', run, makes, new⟩
  obtain ⟨A₂, run₂, makes₂, done₂⟩ := onlyIf_spec (A := A₁) (c := F.isVarArg)
    (f := (·.createVarargNode F.id)) fun _ => by
      obtain ⟨A', run, new, makes⟩ := createVarargNode_spec
        (free_after makes₁ (apart (vararg rfl)) (by simp))
      exact ⟨A', run, makes, new⟩
  obtain ⟨A₃, run₃, makes₃, done₃⟩ := addFormals_spec (A := A₂) nodup fun formal mem => by
    have unused : Slot.value (.argument formal.id) ∉ A.taken :=
      apart (formals (Set.mem_iUnion₂.mpr ⟨formal, mem, rfl⟩))
    exact free_after makes₂ (free_after makes₁ unused (by simp)) (by simp)
  refine ⟨A₃, ?_, ?_, ?_⟩
  · simp [addFunctionBody, run₁, run₂, run₃]
  · exact makes_trans (makes_wider makes₁ ret)
      (makes_trans (makes_wider makes₂ vararg) (makes_wider makes₃ formals))
  · constructor
    · exact fun pointer => taken_mono (makes₂.le.trans makes₃.le) (done₁ pointer)
    · exact fun variadic => taken_mono makes₃.le (done₂ variadic)
    · exact done₃

/-- The nodes of a function that the later phases ask for. -/
structure FunctionReady (M : PtrModule) (F : PtrFunction) (A : Collection) : Prop where
  address : M.hasAddressTaken F.id = true → addressable (.function F.id) ⊆ A.taken
  body : F.isExternal = false → A.BodyReady F

theorem functionReady_mono {M : PtrModule} {F : PtrFunction} (le : A ≤ A')
    (ready : A.FunctionReady M F) : A'.FunctionReady M F where
  address used := (ready.address used).trans (taken_mono le)
  body isDefined := bodyReady_mono le (ready.body isDefined)

theorem addressable_taken {v : GlobalValue} (joined : A.Joined .ADDR_OF
    (A.node (.value (.globalValue v))) (A.node (.object (.globalValue v)))) :
    addressable v ⊆ A.taken := by
  obtain ⟨val, obj, hval, hobj, _⟩ := joined
  intro k mem
  rcases mem with same | same
  · exact taken_iff.mpr ⟨val, same ▸ hval⟩
  · exact taken_iff.mpr ⟨obj, same ▸ hobj⟩

theorem addFunction_spec {M : PtrModule} {F : PtrFunction}
    (free : Disjoint A.taken (functionSlots F)) (nodup : (F.args.map (·.id)).Nodup) :
    ∃ A', A.addFunction M F = some A' ∧ A.Makes A' (functionSlots F) ∧
      A'.FunctionReady M F := by
  obtain ⟨freeAddress, freeBody⟩ := Set.disjoint_union_right.mp free
  obtain ⟨A₁, run₁, makes₁, done₁⟩ := onlyIf_spec (c := M.hasAddressTaken F.id)
    (f := (·.addAddressable (.function F.id)))
    (D := fun A => addressable (.function F.id) ⊆ A.taken) fun _ => by
      obtain ⟨A', run, makes, joined⟩ := addAddressable_spec freeAddress
      exact ⟨A', run, makes, addressable_taken joined⟩
  have stillFree : Disjoint A₁.taken (bodySlots F) := by
    apply Set.disjoint_of_subset_left makes₁.taken
    rw [Set.disjoint_union_left]
    exact ⟨freeBody, by simp [addressable, bodySlots, Set.disjoint_left]⟩
  obtain ⟨A₂, run₂, makes₂, done₂⟩ := onlyIf_spec (c := !F.isExternal)
    (f := (·.addFunctionBody F)) fun _ => addFunctionBody_spec stillFree nodup
  refine ⟨A₂, ?_, ?_, ?_⟩
  · simp [addFunction, run₁, run₂]
  · exact makes_trans (makes_wider makes₁ Set.subset_union_left)
      (makes_wider makes₂ Set.subset_union_right)
  · constructor
    · exact fun used => (done₁ used).trans (taken_mono makes₂.le)
    · exact fun isDefined => done₂ (by rw [isDefined]; rfl)

/-- After the first phase: every global variable points to its memory. -/
structure GlobalsReady (M : PtrModule) (A : Collection) : Prop where
  globals : ∀ G ∈ M.globals, A.Joined .ADDR_OF
    (A.node (.value (.globalValue (.globalVariable G.id))))
    (A.node (.object (.globalValue (.globalVariable G.id))))
  functions : ∀ F ∈ M.functions, A.FunctionReady M F

theorem globalsReady_mono {M : PtrModule} (le : A ≤ A') (ready : A.GlobalsReady M) :
    A'.GlobalsReady M where
  globals G mem := joined_mono le (ready.globals G mem) (fun _ => node_mono le)
    (fun _ => node_mono le)
  functions F mem := functionReady_mono le (ready.functions F mem)

theorem globalValue_ready {M : PtrModule} (ready : A.GlobalsReady M) {v : GlobalValue}
    (address : (Constant.globalValue v).isAddress M = true)
    (used : ∀ f, (Constant.globalValue v).mentions f = true → M.hasAddressTaken f = true) :
    addressable v ⊆ A.taken := by
  cases v with
  | globalVariable g =>
    obtain ⟨G, mem, same⟩ := List.any_eq_true.mp address
    have named : G.id = g := by simpa using same
    exact named ▸ addressable_taken (ready.globals G mem)
  | function f =>
    obtain ⟨F, mem, same⟩ := List.any_eq_true.mp address
    have named : F.id = f := by simpa using same
    have taken := used f (by simp [Constant.mentions])
    rw [← named] at taken ⊢
    exact (ready.functions F mem).address taken

theorem address_ready {M : PtrModule} (ready : A.GlobalsReady M) {c : Constant}
    (address : c.isAddress M = true)
    (used : ∀ f, c.mentions f = true → M.hasAddressTaken f = true) :
    (∃ n, A.nodeFactory.getValueNodeForConstant c = some n) ∧
      ∃ n, A.nodeFactory.getObjectNodeForConstant c = some n := by
  induction c using Constant.isAddress.induct with
  | case1 => exact ⟨⟨_, rfl⟩, _, rfl⟩
  | case2 g =>
    have both := globalValue_ready ready address used
    exact ⟨taken_iff.mp (both (Or.inl rfl)), taken_iff.mp (both (Or.inr rfl))⟩
  | case3 f =>
    have both := globalValue_ready ready address used
    exact ⟨taken_iff.mp (both (Or.inl rfl)), taken_iff.mp (both (Or.inr rfl))⟩
  | case4 base offset ih => exact ih address used
  | case5 operand ih => exact ih address used
  | case6 c => simp [Constant.isAddress] at address

/-- The constraints of an initialiser: the object points to each of its pointers. -/
def Initialises (A : Collection) (objNode : NodeIndex) (leaf : Constant) : Prop :=
  A.Joined .ADDR_OF (some objNode) (A.nodeFactory.getObjectNodeForConstant leaf)

theorem initialises_mono (le : A ≤ A') {objNode : NodeIndex} {leaf : Constant}
    (there : A.Initialises objNode leaf) : A'.Initialises objNode leaf :=
  joined_mono le there (fun _ same => same) (fun _ => objectOfConstant_mono le)

theorem addAddress_spec {M : PtrModule} (ready : A.GlobalsReady M) {objNode : NodeIndex}
    {c : Constant} (address : c.isAddress M = true)
    (used : ∀ f, c.mentions f = true → M.hasAddressTaken f = true) :
    ∃ A', A.addGlobalInitializerConstraints objNode c = some A' ∧ A.Makes A' ∅ ∧
      ∀ leaf ∈ c.leaves, A'.Initialises objNode leaf := by
  obtain ⟨rhsNode, found⟩ := (address_ready ready address used).2
  refine ⟨A.emplace .ADDR_OF objNode rhsNode, ?_, makes_emplace .., ?_⟩
  · cases c with
    | aggregate | aggregateZero | undefAggregate | scalar => simp [Constant.isAddress] at address
    | _ => simp [addGlobalInitializerConstraints, found]
  · intro leaf mem
    have only : leaf = c := by
      cases c with
      | aggregate | aggregateZero | undefAggregate | scalar => simp [Constant.isAddress] at address
      | _ => simpa [Constant.leaves, Constant.isPointerTy] using mem
    rw [only]
    exact ⟨objNode, rhsNode, rfl, objectOfConstant_mono (le_emplace ..) found, mem_emplace ..⟩

mutual

theorem addGlobalInitializerConstraints_spec {M : PtrModule} (objNode : NodeIndex) :
    ∀ (c : Constant) {A : Collection}, A.GlobalsReady M → c.isInitializer M = true →
      (∀ f, c.mentions f = true → M.hasAddressTaken f = true) →
      ∃ A', A.addGlobalInitializerConstraints objNode c = some A' ∧ A.Makes A' ∅ ∧
        ∀ leaf ∈ c.leaves, A'.Initialises objNode leaf
  | .aggregate elements, A, ready, isInit, used => by
    obtain ⟨A', run, makes, done⟩ := addElements_spec objNode elements ready
      (by simpa [Constant.isInitializer] using isInit) (by simpa [Constant.mentions] using used)
    exact ⟨A', by simpa [addGlobalInitializerConstraints] using run, makes,
      by simpa [Constant.leaves] using done⟩
  | .aggregateZero, A, _, _, _ =>
    ⟨A.emplace .COPY objNode NullObjectIndex, by simp [addGlobalInitializerConstraints],
      makes_emplace .., by simp [Constant.leaves, Constant.isPointerTy]⟩
  | .undefAggregate, A, _, _, _ =>
    ⟨A, by simp [addGlobalInitializerConstraints], makes_refl _,
      by simp [Constant.leaves, Constant.isPointerTy]⟩
  | .scalar, A, _, _, _ =>
    ⟨A, by simp [addGlobalInitializerConstraints], makes_refl _,
      by simp [Constant.leaves, Constant.isPointerTy]⟩
  | .pointerNull, _, ready, isInit, used => addAddress_spec ready isInit used
  | .undefPointer, _, _, isInit, _ => by simp [Constant.isInitializer, Constant.isAddress] at isInit
  | .globalValue v, _, ready, isInit, used => addAddress_spec ready isInit used
  | .getElementPtr base offset, _, ready, isInit, used => addAddress_spec ready isInit used
  | .bitCast operand, _, ready, isInit, used => addAddress_spec ready isInit used
  | .intToPtr, _, _, isInit, _ => by simp [Constant.isInitializer, Constant.isAddress] at isInit
  | .pointerExpr, _, _, isInit, _ => by simp [Constant.isInitializer, Constant.isAddress] at isInit

theorem addElements_spec {M : PtrModule} (objNode : NodeIndex) :
    ∀ (cs : List Constant) {A : Collection}, A.GlobalsReady M →
      Constant.isInitializer.allInitializers M cs = true →
      (∀ f, Constant.mentions.anyMentions f cs = true → M.hasAddressTaken f = true) →
      ∃ A', addGlobalInitializerConstraints.addElements A objNode cs = some A' ∧ A.Makes A' ∅ ∧
        ∀ leaf ∈ Constant.leaves.allLeaves cs, A'.Initialises objNode leaf
  | [], A, _, _, _ =>
    ⟨A, by simp [addGlobalInitializerConstraints.addElements], makes_refl _,
      by simp [Constant.leaves.allLeaves]⟩
  | c :: rest, A, ready, isInit, used => by
    simp only [Constant.isInitializer.allInitializers, Bool.and_eq_true] at isInit
    simp only [Constant.mentions.anyMentions, Bool.or_eq_true] at used
    obtain ⟨A₁, run₁, makes₁, done₁⟩ := addGlobalInitializerConstraints_spec objNode c ready
      isInit.1 fun f here => used f (Or.inl here)
    obtain ⟨A₂, run₂, makes₂, done₂⟩ := addElements_spec objNode rest
      (globalsReady_mono makes₁.le ready) isInit.2 fun f later => used f (Or.inr later)
    refine ⟨A₂, ?_, makes_trans makes₁ makes₂, ?_⟩
    · simp [addGlobalInitializerConstraints.addElements, run₁, run₂]
    · intro leaf mem
      simp only [Constant.leaves.allLeaves, List.mem_append] at mem
      rcases mem with here | later
      · exact initialises_mono makes₂.le (done₁ leaf here)
      · exact done₂ leaf later

end

/-- What the last phase over the globals leaves. -/
structure GlobalsCollected (M : PtrModule) (A : Collection) : Prop where
  ready : A.GlobalsReady M
  initialised : ∀ G ∈ M.globals, ∀ c, G.definitiveInitializer = some c → ∀ leaf ∈ c.leaves,
    A.Joined .ADDR_OF (A.node (.object (.globalValue (.globalVariable G.id))))
      (A.nodeFactory.getObjectNodeForConstant leaf)

theorem definitive_initializer {G : GlobalVariable} {c : Constant}
    (definitive : G.definitiveInitializer = some c) : G.initializer = some c := by
  unfold GlobalVariable.definitiveInitializer at definitive
  split at definitive
  · cases definitive
  · exact definitive

theorem address_taken_of_initializer {M : PtrModule} {G : GlobalVariable} {c : Constant}
    {f : FuncId} (mem : G ∈ M.globals) (init : G.initializer = some c)
    (mentioned : c.mentions f = true) : M.hasAddressTaken f = true := by
  apply M.address_used
  unfold usesAddress
  rw [Bool.or_eq_true]
  exact Or.inl (List.any_eq_true.mpr ⟨G, mem, by simp [init, mentioned]⟩)

theorem initGlobal_spec {M : PtrModule} (plain : M.Plain) (ready : A.GlobalsReady M)
    {G : GlobalVariable} (mem : G ∈ M.globals) :
    ∃ A', A.initGlobal G = some A' ∧ A.Makes A' ∅ ∧
      ∀ c, G.definitiveInitializer = some c → ∀ leaf ∈ c.leaves,
        A'.Joined .ADDR_OF (A'.node (.object (.globalValue (.globalVariable G.id))))
          (A'.nodeFactory.getObjectNodeForConstant leaf) := by
  obtain ⟨_, gObj, _, found, _⟩ := ready.globals G mem
  have here : A.nodeFactory.objNodeMap (.globalValue (.globalVariable G.id)) = some gObj := found
  cases definitive : G.definitiveInitializer with
  | none =>
    refine ⟨A.emplace .COPY gObj UniversalObjIndex, ?_, makes_emplace .., by simp⟩
    simp [initGlobal, here, definitive]
  | some c =>
    have init := definitive_initializer definitive
    obtain ⟨c', init', isInit⟩ := plain.initialized G mem
    have same : c' = c := Option.some.inj (init'.symm.trans init)
    obtain ⟨A', run, makes, done⟩ := addGlobalInitializerConstraints_spec gObj c ready
      (same ▸ isInit) fun f mentioned => address_taken_of_initializer mem init mentioned
    refine ⟨A', by simp [initGlobal, here, definitive, run], makes, ?_⟩
    intro d isD leaf inLeaves
    rw [← Option.some.inj isD] at inLeaves
    obtain ⟨obj, rhs, isObj, found', there⟩ := done leaf inLeaves
    exact ⟨obj, rhs, isObj ▸ node_mono makes.le found, found', there⟩

theorem functions_apart (M : PtrModule) :
    M.functions.Pairwise fun F G => Disjoint (functionSlots F) (functionSlots G) := by
  have ids := List.pairwise_map.mp M.func_nodup
  have args := M.arg_nodup
  rw [List.map_flatMap, List.nodup_flatMap] at args
  refine (ids.and args.2).imp fun {F G} both => ?_
  obtain ⟨others, separate⟩ := both
  rw [Set.disjoint_left]
  intro k inF inG
  simp only [functionSlots, bodySlots, addressable, Set.mem_union, Set.mem_insert_iff,
    Set.mem_singleton_iff, Set.mem_iUnion, exists_prop] at inF inG
  rcases inF with (rfl | rfl) | (rfl | rfl) | ⟨formal, mem, rfl⟩
  · simp [others] at inG
  · simp [others] at inG
  · simp [others] at inG
  · simp [others] at inG
  · simp only [reduceCtorEq, Slot.value.injEq, Entity.argument.injEq, false_or] at inG
    obtain ⟨other, mem', same⟩ := inG
    exact separate (List.mem_map.mpr ⟨formal, mem, rfl⟩) (List.mem_map.mpr ⟨other, mem', same.symm⟩)

theorem args_nodup {M : PtrModule} {F : PtrFunction} (mem : F ∈ M.functions) :
    (F.args.map (·.id)).Nodup := by
  have args := M.arg_nodup
  rw [List.map_flatMap, List.nodup_flatMap] at args
  exact args.1 F mem

theorem collectConstraintsForGlobals_spec {M : PtrModule} (plain : M.Plain)
    (empty : A.taken = ∅) : ∃ A', A.collectConstraintsForGlobals M = some A' ∧ A ≤ A' ∧
      (∀ i, .value (.instruction i) ∉ A'.taken ∧ .object (.instruction i) ∉ A'.taken) ∧
      A'.GlobalsCollected M := by
  obtain ⟨A₁, run₁, le₁, keys₁, done₁⟩ := foldlM_allocates
    (f := fun A (G : GlobalVariable) => addAddressable A (.globalVariable G.id)) (l := M.globals)
    (s := A) (D := fun G A => A.Joined .ADDR_OF
      (A.node (.value (.globalValue (.globalVariable G.id))))
      (A.node (.object (.globalValue (.globalVariable G.id)))))
    (fun G _ B _ free => by
      obtain ⟨B', run, makes, done⟩ := addAddressable_spec free
      exact ⟨B', run, makes.le, makes.taken, done⟩)
    (fun G _ B B' le done => joined_mono le done (fun _ => node_mono le) (fun _ => node_mono le))
    ((List.pairwise_map.mp M.global_nodup).imp fun {G H} other => by
      simp [addressable, other.symm])
    (fun G _ => by simp [empty])
  obtain ⟨A₂, run₂, le₂, keys₂, done₂⟩ := foldlM_allocates (f := addFunction M)
    (l := M.functions) (s := A₁) (D := fun F A => A.FunctionReady M F)
    (fun F mem B _ free => by
      obtain ⟨B', run, makes, done⟩ := addFunction_spec free (args_nodup mem)
      exact ⟨B', run, makes.le, makes.taken, done⟩)
    (fun F _ B B' le done => functionReady_mono le done)
    (functions_apart M)
    (fun F _ => by
      apply Set.disjoint_of_subset_left keys₁
      simp [empty, functionSlots, bodySlots, addressable])
  have ready : A₂.GlobalsReady M :=
    ⟨fun G mem => joined_mono le₂ (done₁ G mem) (fun _ => node_mono le₂) (fun _ => node_mono le₂),
      done₂⟩
  obtain ⟨A₃, run₃, le₃, keys₃, done₃⟩ := foldlM_allocates (f := initGlobal)
    (l := M.globals) (s := A₂) (T := taken)
    (D := fun G A => ∀ c, G.definitiveInitializer = some c → ∀ leaf ∈ c.leaves,
        A.Joined .ADDR_OF (A.node (.object (.globalValue (.globalVariable G.id))))
          (A.nodeFactory.getObjectNodeForConstant leaf))
    (fun G mem B later _ => by
      obtain ⟨B', run, makes, done⟩ := initGlobal_spec plain (globalsReady_mono later ready) mem
      exact ⟨B', run, makes.le, makes.taken, done⟩)
    (fun G _ B B' le done c definitive leaf inLeaves => joined_mono le
      (done c definitive leaf inLeaves) (fun _ => node_mono le) (fun _ => objectOfConstant_mono le))
    (List.pairwise_of_forall fun _ _ => by simp)
    (fun G _ => by simp)
  refine ⟨A₃, ?_, le₁.trans (le₂.trans le₃), ?_, globalsReady_mono le₃ ready, done₃⟩
  · simp [collectConstraintsForGlobals, run₁, run₂, run₃]
  · intro i
    have free : ∀ k : Slot, k = .value (.instruction i) ∨ k = .object (.instruction i) →
        k ∉ A₃.taken := by
      intro k isInst owned
      rcases keys₃ owned with before | here
      · rcases keys₂ before with before | here
        · rcases keys₁ before with before | here
          · rw [empty] at before
            exact before
          · rcases isInst with rfl | rfl <;> simp [addressable] at here
        · rcases isInst with rfl | rfl <;>
            simp [addressable, functionSlots, bodySlots] at here
      · simp at here
    exact ⟨free _ (Or.inl rfl), free _ (Or.inr rfl)⟩

end Collection
end ProgramSlicer.Andersen
