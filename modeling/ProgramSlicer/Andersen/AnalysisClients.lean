import ProgramSlicer.Andersen.NodeValues
import ProgramSlicer.Andersen.WholeAnalysis

/-!
What the pass and `AndersenAA` answer when the analysis is done: points-to sets as values,
alias queries of locations, and whether memory is constant.
-/
namespace ProgramSlicer.Andersen
open FoldRules InclusionConstraints AndersNodeFactory Collection

deriving instance BEq for Constant
deriving instance BEq for PtrValue

structure Location where
  ptr : PtrValue
  size : Nat

namespace Finished

def getValueForNode (R : Finished) (M : PtrModule) (n : NodeIndex) : Option Entity :=
  M.entities.find? fun v => v.slots.any fun k => R.indexOf (.slot k) = some n

/-- `none`: the analysis does not know where the pointer points to. -/
def getPointsToSet (R : Finished) (M : PtrModule) (v : PtrValue) : Option (List Entity) :=
  match R.maps.getValueNodeFor v with
  | none => none
  | some ptrIndex =>
    if ptrIndex = UniversalPtrIndex then none
    else match R.ptsGraph (R.nodeFactory.getMergeTarget ptrIndex) with
      | none => some []
      | some ptsSet =>
        some ((ptsSet.bits.filter (· ≠ NullObjectIndex)).filterMap (R.getValueForNode M))

/-- `AndersenAA::alias`; `base` is the analysis that is asked next. -/
def aliasQuery (R : Finished) (stripPointerCasts : PtrValue → PtrValue)
    (base : Location → Location → AliasResult) (l1 l2 : Location) : Option AliasResult :=
  if l1.size = 0 ∨ l2.size = 0 then some .NoAlias
  else
    let v1 := stripPointerCasts l1.ptr
    let v2 := stripPointerCasts l2.ptr
    if !v1.isPointerTy || !v2.isPointerTy then some .NoAlias
    else if v1 == v2 then some .MustAlias
    else do
      let andersResult ← R.result.andersenAlias v1 v2
      if andersResult ≠ .MayAlias then return andersResult
      else return base l1 l2

def isConstantMemory (R : Finished) (M : PtrModule) (isConstant : GlobalId → Bool)
    (idx : NodeIndex) : Bool :=
  match R.getValueForNode M idx with
  | some (.globalValue (.globalVariable g)) => isConstant g
  | some (.globalValue (.function _)) => true
  | some _ => false
  | none => idx = NullObjectIndex

/-- `base` is the analysis that is asked next. The entry is looked for at the node itself, not
    at what it has been merged into. -/
def pointsToConstantMemory (R : Finished) (M : PtrModule) (isConstant : GlobalId → Bool)
    (base : PtrValue → Bool) (v : PtrValue) : Bool :=
  match R.maps.getValueNodeFor v with
  | none => base v
  | some node =>
    match R.ptsGraph node with
    | none => base v
    | some ptsSet => if ptsSet.bits.all (R.isConstantMemory M isConstant) then true else base v

end Finished

/-! ### Values of nodes -/

section Values
variable {S : Settings} {names : FuncId → String} {fuel : Nat} {M : PtrModule} {R : Finished}

theorem collected_of_run (run : runOnModule S names fuel M = some R) :
    ∃ A, collectConstraints (addConstraintForExternalLibrary names M) M = some A ∧
      R.maps = A.nodeFactory ∧ ∀ p, R.indexOf p = A.indexOf p := by
  obtain ⟨A, collected, run⟩ := bind_some run
  obtain ⟨⟨F, cs⟩, _, run⟩ := bind_some run
  obtain ⟨g, _, done⟩ := bind_some run
  obtain rfl := Option.some.inj done
  exact ⟨A, collected, rfl, index_collected rfl⟩

theorem index_apart (run : runOnModule S names fuel M = some R) {p q : Place} {n : NodeIndex}
    (isP : R.indexOf p = some n) (isQ : R.indexOf q = some n) : p = q := by
  obtain ⟨A, collected, _, index⟩ := collected_of_run run
  obtain ⟨naming, rendered⟩ := collectConstraints_renders collected
  rw [index] at isP isQ
  exact Option.some.inj ((rendered.named p n isP).symm.trans (rendered.named q n isQ))

theorem getValueForNode_iff (run : runOnModule S names fuel M = some R) {n : NodeIndex}
    {v : Entity} : R.getValueForNode M n = some v ↔
      ∃ k, k.entity = v ∧ R.indexOf (.slot k) = some n := by
  have owner : ∀ {w}, R.getValueForNode M n = some w →
      ∃ k, k.entity = w ∧ R.indexOf (.slot k) = some n := by
    intro w found
    unfold Finished.getValueForNode at found
    have here := List.find?_some found
    obtain ⟨k, mem, index⟩ := List.any_eq_true.mp here
    exact ⟨k, mem_slots.mp mem, of_decide_eq_true index⟩
  constructor
  · exact owner
  · rintro ⟨k, rfl, index⟩
    cases found : R.getValueForNode M n with
    | none =>
      obtain ⟨A, collected, _, same⟩ := collected_of_run run
      have listed := collectConstraints_entities collected (k := k)
        ((same (.slot k)).symm.trans index)
      have here := List.find?_eq_none.mp found _ listed
      exact absurd (List.any_eq_true.mpr ⟨k, mem_slots.mpr rfl, by simpa using index⟩) here
    | some w =>
      obtain ⟨j, rfl, other⟩ := owner found
      rw [Place.slot.inj (index_apart run index other)]

theorem getValueForNode_none (run : runOnModule S names fuel M = some R) {p : Place}
    {n : NodeIndex} (index : R.indexOf p = some n) (other : ∀ k, p ≠ .slot k) :
    R.getValueForNode M n = none := by
  refine Option.eq_none_iff_forall_ne_some.mpr fun v found => ?_
  obtain ⟨k, _, here⟩ := (getValueForNode_iff run).mp found
  exact other k (index_apart run index here)

theorem valueNode_index (v : PtrValue) : R.maps.getValueNodeFor v = v.place.bind R.indexOf := by
  cases v with
  | constant c =>
    show R.maps.getValueNodeForConstant c = c.place.bind R.indexOf
    induction c using Constant.place.induct with
    | case4 base offset ih => exact ih
    | case5 operand ih => exact ih
    | _ => rfl
  | _ => rfl

theorem pts_of_node {v : PtrValue} {n : NodeIndex} (sound : R.Sound)
    (node : R.maps.getValueNodeFor v = some n) : R.result.pts v = R.pts n := by
  have inside : n < R.nodeFactory.numNodes := by
    rw [sound.numNodes]
    rw [valueNode_index] at node
    obtain ⟨p, _, index⟩ := Option.bind_eq_some_iff.mp node
    exact sound.inside p n index
  have rep : R.result.valueRep v = some (R.nodeFactory.getMergeTarget n) := by
    simp [AndersenResult.valueRep, Finished.result, node, inside]
  rw [AndersenResult.pts_eq rep]
  rfl

/-! ### Points-to sets -/

theorem pointsTo_cases {v : PtrValue} {list : List Entity}
    (known : R.getPointsToSet M v = some list) : ∃ n, R.maps.getValueNodeFor v = some n ∧
      n ≠ UniversalPtrIndex ∧
      ∀ e, e ∈ list ↔ ∃ o ∈ R.pts n, o ≠ NullObjectIndex ∧ R.getValueForNode M o = some e := by
  unfold Finished.getPointsToSet at known
  cases node : R.maps.getValueNodeFor v with
  | none => simp [node] at known
  | some n =>
    rw [node] at known
    obtain ⟨other, known⟩ := Option.ite_none_left_eq_some.mp known
    refine ⟨n, rfl, other, fun e => ?_⟩
    unfold Finished.pts
    cases entry : R.ptsGraph (R.nodeFactory.getMergeTarget n) with
    | none =>
      rw [entry] at known
      simp [← Option.some.inj known]
    | some ptsSet =>
      rw [entry] at known
      rw [← Option.some.inj known]
      simp only [List.mem_filterMap, List.mem_filter, decide_eq_true_eq, SparseBitVector.mem_bits,
        Set.mem_ofPred_eq, Option.some.injEq, exists_eq_left', and_assoc]

theorem mem_getPointsToSet (run : runOnModule S names fuel M = some R) {v : PtrValue}
    {list : List Entity} (known : R.getPointsToSet M v = some list) {n : NodeIndex}
    (node : R.maps.getValueNodeFor v = some n) {e : Entity} :
    e ∈ list ↔ ∃ o ∈ R.pts n, ∃ k, k.entity = e ∧ R.indexOf (.slot k) = some o := by
  obtain ⟨m, node', _, mem⟩ := pointsTo_cases known
  obtain rfl := Option.some.inj (node.symm.trans node')
  rw [mem]
  constructor
  · rintro ⟨o, inPts, _, value⟩
    exact ⟨o, inPts, (getValueForNode_iff run).mp value⟩
  · rintro ⟨o, inPts, k, same, index⟩
    refine ⟨o, inPts, ?_, (getValueForNode_iff run).mpr ⟨k, same, index⟩⟩
    rintro rfl
    cases index_apart run index (q := .nullObject) rfl

end Values

section Exact
variable {S : Settings} {names : FuncId → String} {fuel : Nat} {M : PtrModule} {R : Finished}

theorem solution_memory {p q : Place} (reached : q ∈ solution (flowSystem (M.flows names)) p) :
    q.isMemory = true := by
  obtain ⟨e, taken⟩ := address_of_derives reached
  exact flows_memory names M _ taken rfl

/-- Whatever the addresses of objects are, the listed values account for each that the pointer
    may hold. -/
def Finished.PointsToComplete (R : Finished) (M : PtrModule) (v : PtrValue) : Prop :=
  ∀ list, R.getPointsToSet M v = some list →
    ∀ (Addr : Type) (γ : Concretisation Addr) (state : PtrValue → Option Addr),
      R.result.Consistent γ state → ∀ x, state v = some x →
        ∃ e ∈ list, ∃ k o, k.entity = e ∧ R.indexOf (.slot k) = some o ∧ x ∈ γ.addresses o

theorem indexed_of_solution (run : runOnModule S names fuel M = some R) {p q : Place}
    (reached : q ∈ solution (flowSystem (M.flows names)) p) : ∃ o, R.indexOf q = some o := by
  obtain ⟨A, collected, _, index⟩ := collected_of_run run
  obtain ⟨naming, rendered⟩ := collectConstraints_renders collected
  obtain ⟨e, taken⟩ := address_of_derives reached
  obtain ⟨o, found⟩ := rendered.object _ taken rfl
  exact ⟨o, (index q).trans found⟩

variable {A : Collection} (run : runOnModule S names fuel M = some R)
  (collected : collectConstraints (addConstraintForExternalLibrary names M) M = some A)
  (safe : S.Safe A.nodeFactory.numNodes A.constraints) (offHVN : S.enableHVN = false)
  (offHU : S.enableHU = false)
include run collected safe offHVN offHU

/-- The list has the values of exactly the memory that the flows of the module lead to. It
    leaves out the universal object, and is complete only where that is not among it. -/
theorem getPointsToSet_complete_iff {v : PtrValue} {list : List Entity}
    (known : R.getPointsToSet M v = some list) : ∃ p, v.place = some p ∧
      (∀ e, e ∈ list ↔ ∃ k, k.entity = e ∧ .slot k ∈ solution (flowSystem (M.flows names)) p) ∧
      (R.PointsToComplete M v ↔ .universalObject ∉ solution (flowSystem (M.flows names)) p) := by
  obtain ⟨n, node, _, _⟩ := pointsTo_cases known
  obtain ⟨p, place, isN⟩ := Option.bind_eq_some_iff.mp ((valueNode_index v).symm.trans node)
  have sound := (finished_spec run collected safe).1
  have pts := pts_of_node sound node
  have exact := exact_of_run run collected safe offHVN offHU isN
  have mem := fun e => mem_getPointsToSet run known node (e := e)
  refine ⟨p, place, fun e => ?_, ?_⟩
  · rw [mem]
    constructor
    · rintro ⟨o, inPts, k, same, index⟩
      obtain ⟨q, index', reached⟩ := (exact o).mp inPts
      obtain rfl := index_apart run index index'
      exact ⟨k, same, reached⟩
    · rintro ⟨k, same, reached⟩
      obtain ⟨o, index⟩ := indexed_of_solution run reached
      exact ⟨o, (exact o).mpr ⟨_, index, reached⟩, k, same, index⟩
  · constructor
    · intro complete universal
      have inPts : UniversalObjIndex ∈ R.result.pts v := by
        rw [pts]
        exact (exact _).mpr ⟨_, rfl, universal⟩
      -- the pointer holds an address of which nothing is known
      have notNull : UniversalObjIndex ≠ NullObjectIndex := by decide
      let γ := AndersenResult.onlyObject Unit UniversalObjIndex notNull
      have holds : ∃ o ∈ R.result.pts v, () ∈ γ.addresses o :=
        ⟨_, inPts, by simp [γ, AndersenResult.onlyObject]⟩
      obtain ⟨state, consistent, held, _⟩ :=
        AndersenResult.consistent_pair R.result γ () () holds holds fun _ => rfl
      obtain ⟨e, _, k, o, _, index, inside⟩ := complete list known Unit γ state consistent () held
      have isUniversal : o = UniversalObjIndex := by
        simpa [γ, AndersenResult.onlyObject] using inside
      cases index_apart run (isUniversal ▸ index) (q := .universalObject) rfl
    · intro absent list' known' Addr γ state consistent x held
      obtain rfl := Option.some.inj (known.symm.trans known')
      obtain ⟨o, inPts, inside⟩ := consistent v x held
      rw [pts] at inPts
      obtain ⟨q, index, reached⟩ := (exact o).mp inPts
      have memory := solution_memory reached
      cases q with
      | universalObject => exact absurd reached absent
      | nullObject =>
        obtain rfl := Option.some.inj index
        exact absurd rfl (AndersenResult.not_null_of_address inside)
      | slot k =>
        exact ⟨k.entity, (mem _).mpr ⟨o, inPts, k, rfl, index⟩, k, o, rfl, index, inside⟩
      | _ => cases memory

/-- Where the node has an entry of its own, memory is called constant exactly if everything it
    points to is null, a function, a constant variable, or the variable arguments of a
    function, which are counted as the function. -/
theorem pointsToConstantMemory_iff {isConstant : GlobalId → Bool} {v : PtrValue} {p : Place}
    (place : v.place = some p) {n : NodeIndex} (isN : R.indexOf p = some n)
    (own : (R.ptsGraph n).isSome = true) :
    R.pointsToConstantMemory M isConstant (fun _ => false) v = true ↔
      ∀ q ∈ solution (flowSystem (M.flows names)) p, q = .nullObject ∨
        (∃ f, q = .slot (.object (.globalValue (.function f))) ∨ q = .slot (.vararg f)) ∨
        ∃ g, q = .slot (.object (.globalValue (.globalVariable g))) ∧ isConstant g = true := by
  have node : R.maps.getValueNodeFor v = some n := by rw [valueNode_index, place]; exact isN
  obtain ⟨ptsSet, entry⟩ := Option.isSome_iff_exists.mp own
  have root := ((finished_spec run collected safe).1.root n own).1
  have exact := exact_of_run run collected safe offHVN offHU isN
  have answer : R.pointsToConstantMemory M isConstant (fun _ => false) v = true ↔
      ∀ o ∈ ptsSet, R.isConstantMemory M isConstant o = true := by
    unfold Finished.pointsToConstantMemory
    simp [node, entry, SparseBitVector.mem_bits]
  have members : ∀ o, o ∈ ptsSet ↔ o ∈ R.pts n := by
    intro o
    simp [Finished.pts, root, entry]
  have each : ∀ q o, R.indexOf q = some o → q.isMemory = true →
      (R.isConstantMemory M isConstant o = true ↔ q = .nullObject ∨
        (∃ f, q = .slot (.object (.globalValue (.function f))) ∨ q = .slot (.vararg f)) ∨
        ∃ g, q = .slot (.object (.globalValue (.globalVariable g))) ∧ isConstant g = true) := by
    intro q o index memory
    unfold Finished.isConstantMemory
    cases q with
    | universalObject | nullObject =>
      rw [getValueForNode_none run index (by simp)]
      obtain rfl := Option.some.inj index
      simp [UniversalObjIndex, NullObjectIndex]
    | slot k =>
      rw [(getValueForNode_iff run).mpr ⟨k, rfl, index⟩]
      cases k with
      | object w => rcases w with i | a | (g | f) <;> simp [Slot.entity]
      | vararg f => simp [Slot.entity]
      | _ => cases memory
    | _ => cases memory
  rw [answer]
  constructor
  · intro all q reached
    obtain ⟨o, index⟩ := indexed_of_solution run reached
    exact (each q o index (solution_memory reached)).mp
      (all o ((members o).mpr ((exact o).mpr ⟨q, index, reached⟩)))
  · intro all o mem
    obtain ⟨q, index, reached⟩ := (exact o).mp ((members o).mp mem)
    exact (each q o index (solution_memory reached)).mpr (all q reached)

end Exact

/-- The analysis lists nothing for a pointer made of a number that it knows to be one. -/
theorem selfStored_incomplete : ∃ R list,
    runOnModule (hashed false true) (fun _ => "main") 50 selfStored = some R ∧
      R.getPointsToSet selfStored (.instruction 0) = some list ∧
      ¬ R.PointsToComplete selfStored (.instruction 0) := by
  have answer : ((runOnModule (hashed false true) (fun _ => "main") 50 selfStored).bind fun R =>
      R.getPointsToSet selfStored (.instruction 0)).isSome = true := by decide +kernel
  obtain ⟨list, answer⟩ := Option.isSome_iff_exists.mp answer
  obtain ⟨R, run, known⟩ := Option.bind_eq_some_iff.mp answer
  obtain ⟨A, collected⟩ : ∃ A, collectConstraints
      (addConstraintForExternalLibrary (fun _ => "main") selfStored) selfStored = some A := ⟨_, rfl⟩
  obtain ⟨p, place, _, complete⟩ := getPointsToSet_complete_iff run collected
    hashed_safe rfl rfl known
  obtain rfl := Option.some.inj place
  exact ⟨R, list, run, known, fun all => complete.mp all selfStored_unknown⟩

def castCells : PtrModule where
  globals := [⟨1, some .scalar, false⟩]
  functions := [⟨0, [], false, false, false, [⟨0, [⟨0, true, .alloca⟩,
    ⟨1, true, .bitCast (.instruction 0)⟩,
    ⟨2, true, .bitCast (.constant (.globalValue (.globalVariable 1)))⟩, ⟨3, false, .ret none⟩]⟩]⟩]
  global_nodup := by decide
  func_nodup := by decide
  inst_nodup := by decide
  arg_nodup := by decide

theorem castCells_plain : castCells.Plain := by
  constructor
  · intro G mem
    simp only [castCells, List.mem_cons, List.not_mem_nil, or_false] at mem
    exact ⟨_, by rw [mem], by decide⟩
  · decide

theorem castCells_known : ∃ A,
    collectConstraints (addConstraintForExternalLibrary (fun _ => "main") castCells) castCells =
      some A := Option.isSome_iff_exists.mp (by decide +kernel)

/-- What the second cast points to, read off the answer. -/
theorem castCells_onlyConstant : ∃ R,
    runOnModule (hashed false true) (fun _ => "main") 50 castCells = some R ∧
      R.pointsToConstantMemory castCells (· == 1) (fun _ => false) (.instruction 2) = true ∧
      ∀ q ∈ solution (flowSystem (castCells.flows fun _ => "main")) (.slot (.value (.instruction 2))),
        q = .nullObject ∨
        (∃ f, q = .slot (.object (.globalValue (.function f))) ∨ q = .slot (.vararg f)) ∨
        ∃ g, q = .slot (.object (.globalValue (.globalVariable g))) ∧ (g == 1) = true := by
  have answer : ((runOnModule (hashed false true) (fun _ => "main") 50 castCells).map fun R =>
      (R.indexOf (.slot (.value (.instruction 2))), (R.ptsGraph 8).isSome,
        R.pointsToConstantMemory castCells (· == 1) (fun _ => false) (.instruction 2))) =
      some (some 8, true, true) := by decide +kernel
  obtain ⟨R, run, facts⟩ := Option.map_eq_some_iff.mp answer
  obtain ⟨index, own, constant⟩ := by simpa only [Prod.mk.injEq] using facts
  obtain ⟨A, collected⟩ := castCells_known
  exact ⟨R, run, constant,
    (pointsToConstantMemory_iff run collected hashed_safe rfl rfl rfl index own).mp constant⟩

/-! ### Executions -/

/-- In some state of some execution the pointer holds an address in this object. -/
def Held (M : PtrModule) (v : PtrValue) (o : MemoryObject) : Prop :=
  ∃ s, Reachable M s ∧ ∃ φ ∈ s.frames, v.isPointerIn M φ.function = true ∧
    ∃ a, φ.eval v = some a ∧ a.object = o

/-- The pointer that a cast or an address computation starts from. -/
def Operation.castOperand : Operation → Option PtrValue
  | bitCast v | getElementPtr v => some v
  | _ => none

section Casts
variable {M : PtrModule} {A : Collection}

theorem inst_unique {F G : PtrFunction} (hF : F ∈ M.functions) (hG : G ∈ M.functions)
    {I J : PtrInstruction} (hI : I ∈ F.insts) (hJ : J ∈ G.insts) (same : I.id = J.id) : I = J :=
  List.inj_on_of_nodup_map M.inst_nodup (List.mem_flatMap.mpr ⟨F, hF, hI⟩)
    (List.mem_flatMap.mpr ⟨G, hG, hJ⟩) same

/-- What a cast has left in a register was once in the pointer that it started from. -/
def CastsHeld (M : PtrModule) (φ : Frame) : Prop :=
  ∀ F ∈ M.functions, ∀ I ∈ F.insts, ∀ v, I.op.castOperand = some v →
    ∀ a, φ.results I.id = some a → Held M v a.object

theorem advance_results {φ : Frame} {J : PtrInstruction} {result : Option Address}
    {rest : List PtrInstruction} {i : InstId} {a : Address}
    (holds : (φ.advance J result rest).results i = some a) :
    φ.results i = some a ∨ (i = J.id ∧ J.pointerTy = true ∧ result = some a) := by
  simp only [Frame.advance] at holds
  split at holds
  · rename_i pointer
    by_cases here : i = J.id
    · rw [here, Function.update_self] at holds
      exact .inr ⟨here, pointer, holds⟩
    · rw [Function.update_of_ne here] at holds
      exact .inl holds
  · exact .inl holds

theorem casts_advance {φ : Frame} (old : CastsHeld M φ) (inv : A.FrameInv M φ) {J : PtrInstruction}
    {rest : List PtrInstruction} (next : φ.rest = J :: rest) {result : Option Address}
    (new : ∀ v, J.op.castOperand = some v → J.pointerTy = true → ∀ a, result = some a →
      Held M v a.object) : CastsHeld M (φ.advance J result rest) := by
  intro F hF I hI v cast a holds
  rcases advance_results holds with before | ⟨same, pointer, here⟩
  · exact old F hF I hI v cast a before
  · obtain rfl := inst_unique hF inv.function hI (next_mem inv next) same
    exact new v cast pointer a here

theorem computed_cast {φ : Frame} {memory : Memory} {op : Operation} {result : Option Address}
    (computes : Computes φ memory op result) {v : PtrValue} (cast : op.castOperand = some v)
    {a : Address} (holds : result = some a) : ∃ b, φ.eval v = some b ∧ b.object = a.object := by
  cases computes with
  | getElementPtr base offset =>
    obtain rfl := Option.some.inj cast
    obtain ⟨b, held, shifted⟩ := Option.map_eq_some_iff.mp holds
    exact ⟨b, held, by rw [← shifted, Address.shift_object]⟩
  | bitCast operand =>
    obtain rfl := Option.some.inj cast
    exact ⟨a, holds, rfl⟩
  | _ => cases cast

theorem castOperand_pointer {F : PtrFunction} {I : PtrInstruction} (plain : I.isPlain M F = true)
    (pointer : I.pointerTy = true) {v : PtrValue} (cast : I.op.castOperand = some v) :
    v.isPointerIn M F = true := by
  unfold PtrInstruction.isPlain at plain
  revert plain cast
  cases I.op with
  | getElementPtr base =>
    intro plain cast
    obtain rfl := Option.some.inj cast
    exact (Bool.and_eq_true_iff.mp plain).2
  | bitCast operand =>
    intro plain cast
    obtain rfl := Option.some.inj cast
    simpa [pointer] using plain
  | _ =>
    intro _ cast
    cases cast

theorem casts_enter {φ : Frame} (old : CastsHeld M φ) (inv : A.FrameInv M φ) {B : PtrBlock}
    (block : B ∈ φ.function.blocks) : CastsHeld M (φ.enter B) := by
  intro F hF I hI v cast a holds
  simp only [Frame.enter] at holds
  split at holds
  · rename_i J found
    have named := List.find?_some found
    have inPhis := List.mem_of_find?_eq_some found
    have isPhi := List.all_eq_true.mp List.all_takeWhile J inPhis
    have inB := (List.takeWhile_sublist _).mem inPhis
    simp only [Bool.and_eq_true, decide_eq_true_eq] at named
    obtain rfl := inst_unique hF inv.function hI (mem_insts_of_block block inB) named.1.symm
    unfold Frame.isPhi at isPhi
    split at isPhi
    · rename_i op
      rw [op] at cast
      cases cast
    · cases isPhi
  · exact old F hF I hI v cast a holds

theorem step_casts (plain : M.Plain) {s s' : State}
    (reachable : Reachable M s) (inv : A.StateInv M s) (old : ∀ φ ∈ s.frames, CastsHeld M φ)
    (step : Step M s s') : ∀ φ ∈ s'.frames, CastsHeld M φ := by
  have top : ∀ {φ ψ : Frame} {below : List Frame}, (∀ χ ∈ φ :: below, CastsHeld M χ) →
      CastsHeld M ψ → ∀ χ ∈ ψ :: below, CastsHeld M χ := by
    intro φ ψ below all here χ mem
    rcases List.mem_cons.mp mem with same | there
    · exact same ▸ here
    · exact all χ (List.mem_cons_of_mem φ there)
  cases step with
  | @compute φ below memory n I rest result next computes =>
    have frame := inv.frames φ (List.mem_cons_self ..)
    refine top old (casts_advance (old φ (List.mem_cons_self ..)) frame next ?_)
    intro v cast pointer a holds
    obtain ⟨b, held, same⟩ := computed_cast computes cast holds
    exact ⟨_, reachable, φ, List.mem_cons_self .., castOperand_pointer (next_plain plain frame next)
      pointer cast, b, held, same⟩
  | @alloca φ below memory n I rest next op =>
    have frame := inv.frames φ (List.mem_cons_self ..)
    refine top old (casts_advance (old φ (List.mem_cons_self ..)) frame next ?_)
    intro v cast
    rw [op] at cast
    cases cast
  | @store φ below memory memory' n I rest v p a next op pointer stored =>
    have frame := inv.frames φ (List.mem_cons_self ..)
    exact top old (casts_advance (old φ (List.mem_cons_self ..)) frame next fun _ _ _ _ none =>
      nomatch none)
  | @branch φ below memory n I rest targets B next op target block =>
    have frame := inv.frames φ (List.mem_cons_self ..)
    exact top old (casts_enter (old φ (List.mem_cons_self ..)) frame block)
  | @call φ below memory n I rest f actuals F B next op callee entry =>
    intro χ mem
    rcases List.mem_cons.mp mem with same | there
    · rw [same]
      exact fun _ _ _ _ _ _ _ holds => nomatch holds
    · exact old χ there
  | @ret φ caller below memory n I C rest after value next op site =>
    have frame := inv.frames caller (by simp)
    obtain ⟨⟨C', after', f, actuals, site', call, callee⟩, _⟩ := inv.waiting
    have same := (List.cons.inj (site.symm.trans site')).1
    refine top (fun χ mem => old χ (List.mem_cons_of_mem φ mem))
      (casts_advance (old caller (by simp)) frame site ?_)
    intro v cast
    rw [same, call] at cast
    cases cast
  | exit next op => exact fun φ mem => nomatch mem

theorem reachable_casts (plain : M.Plain) (overridable : OverridableNull M) {s : State}
    (reachable : Reachable M s) : ∀ φ ∈ s.frames, CastsHeld M φ := by
  obtain ⟨A, _, collected⟩ := collectConstraints_spec noLibrary plain
  obtain ⟨s₀, starts, steps⟩ := reachable
  induction steps with
  | refl =>
    cases starts with
    | start =>
      intro φ mem
      rw [List.mem_singleton.mp mem]
      exact fun _ _ _ _ _ _ _ holds => nomatch holds
  | tail before step ih =>
    have middle : Reachable M _ := ⟨s₀, starts, before⟩
    exact step_casts plain middle (reachable_inv collected plain overridable middle) ih step

/-- One cast that `stripPointerCasts` sees through; `zeroIndices` says of which instructions
    all indices are zero. -/
inductive StripsCast (M : PtrModule) (zeroIndices : InstId → Bool) : PtrValue → PtrValue → Prop where
  | bitCast {F : PtrFunction} {I : PtrInstruction} {v : PtrValue} (function : F ∈ M.functions)
      (inst : I ∈ F.insts) (op : I.op = .bitCast v) :
      StripsCast M zeroIndices (.instruction I.id) v
  | getElementPtr {F : PtrFunction} {I : PtrInstruction} {v : PtrValue}
      (function : F ∈ M.functions) (inst : I ∈ F.insts) (op : I.op = .getElementPtr v)
      (zero : zeroIndices I.id = true) : StripsCast M zeroIndices (.instruction I.id) v
  | constantBitCast (c : Constant) :
      StripsCast M zeroIndices (.constant (.bitCast c)) (.constant c)
  | constantGetElementPtr (c : Constant) :
      StripsCast M zeroIndices (.constant (.getElementPtr c 0)) (.constant c)

theorem constant_pointer {c : Constant} {F : PtrFunction} (address : c.isAddress M = true) :
    (PtrValue.constant c).isPointerIn M F = true := by
  cases c with
  | undefPointer => rfl
  | _ => exact address

theorem strip_held (plain : M.Plain) (overridable : OverridableNull M)
    {zeroIndices : InstId → Bool} {v w : PtrValue} (strips : StripsCast M zeroIndices v w)
    {o : MemoryObject} (held : Held M v o) : Held M w o := by
  obtain ⟨s, reachable, φ, mem, pointer, a, holds, rfl⟩ := held
  cases strips with
  | bitCast function inst op =>
    exact reachable_casts plain overridable reachable φ mem _ function _ inst w (by rw [op]; rfl) a
      holds
  | getElementPtr function inst op zero =>
    exact reachable_casts plain overridable reachable φ mem _ function _ inst w (by rw [op]; rfl) a
      holds
  | constantBitCast c => exact ⟨s, reachable, φ, mem, constant_pointer pointer, a, holds, rfl⟩
  | constantGetElementPtr c =>
    obtain ⟨b, base, shifted⟩ := Option.map_eq_some_iff.mp holds
    exact ⟨s, reachable, φ, mem, constant_pointer pointer, b, base, by rw [← shifted]; rfl⟩

end Casts

theorem address_place_ne {M : PtrModule} {c : Constant} (address : c.isAddress M = true) :
    c.place ≠ some .universalPtr := by
  induction c using Constant.place.induct with
  | case4 base offset ih => exact ih address
  | case5 operand ih => exact ih address
  | case6 => cases address
  | _ => simp [Constant.place, valuePlace]

theorem pointer_place_ne {M : PtrModule} {F : PtrFunction} {v : PtrValue}
    (pointer : v.isPointerIn M F = true) : v.place ≠ some .universalPtr := by
  cases v with
  | constant c =>
    cases c with
    | undefPointer => simp [PtrValue.place, Constant.place]
    | _ => exact address_place_ne (M := M) pointer
  | _ => simp [PtrValue.place, valuePlace]

def Overlap (φ : Frame) (l1 l2 : Location) : Prop :=
  ∃ a b, φ.eval l1.ptr = some a ∧ φ.eval l2.ptr = some b ∧ a.object = b.object ∧
    ∃ byte : Int, (a.offset ≤ byte ∧ byte < a.offset + l1.size) ∧
      b.offset ≤ byte ∧ byte < b.offset + l2.size

section Sound
variable {S : Settings} {names : FuncId → String} {fuel : Nat} {M : PtrModule} {R : Finished}
  (plain : M.Plain) (overridable : OverridableNull M)
  (safe : ∀ A, collectConstraints (addConstraintForExternalLibrary names M) M = some A →
    S.Safe A.nodeFactory.numNodes A.constraints)
  (run : runOnModule S names fuel M = some R)
include plain overridable safe run

omit plain overridable in
theorem sound_of_run : R.Sound := by
  obtain ⟨A, collected, _⟩ := collected_of_run run
  exact (finished_spec run collected (safe A collected)).1

theorem held_known {v : PtrValue} {o : MemoryObject} (held : Held M v o) :
    R.MayPoint (R.maps.getValueNodeFor v) o := by
  obtain ⟨s, reachable, φ, mem, pointer, a, holds, rfl⟩ := held
  exact (approximates_of_run plain overridable safe run reachable).values φ mem v pointer a holds

theorem sites_apart {v w : PtrValue} (answer : R.result.andersenAlias v w = some .NoAlias)
    {o o' : MemoryObject} (heldV : Held M v o) (heldW : Held M w o') : o.site ≠ o'.site := by
  intro same
  have sound := sound_of_run safe run
  obtain ⟨n, b, nodeV, object, inV⟩ := held_known plain overridable safe run heldV
  obtain ⟨m, c, nodeW, object', inW⟩ := held_known plain overridable safe run heldW
  rw [same, object'] at object
  obtain rfl := Option.some.inj object
  have rep : ∀ {u k}, R.maps.getValueNodeFor u = some k →
      R.result.valueRep u = some (R.nodeFactory.getMergeTarget k) := by
    intro u k node
    rw [valueNode_index] at node
    obtain ⟨p, _, index⟩ := Option.bind_eq_some_iff.mp node
    have inside : k < R.nodeFactory.numNodes := sound.numNodes ▸ sound.inside p k index
    simp [AndersenResult.valueRep, Finished.result, valueNode_index, node, inside]
  obtain ⟨_, _, _, apart⟩ := (AndersenResult.answers_noAlias_iff (rep nodeV) (rep nodeW)).mp answer
  rw [pts_of_node sound nodeV, pts_of_node sound nodeW] at apart
  have isNull := apart c inV inW
  cases index_apart run (p := .slot (.object o'.site)) (q := .nullObject) (isNull ▸ object') rfl

theorem aliasQuery_cases {zeroIndices : InstId → Bool} {stripPointerCasts : PtrValue → PtrValue}
    (strips : ∀ v, Relation.ReflTransGen (StripsCast M zeroIndices) v (stripPointerCasts v))
    {base : Location → Location → AliasResult} {l1 l2 : Location} (size1 : l1.size ≠ 0)
    (size2 : l2.size ≠ 0) (answer : R.aliasQuery stripPointerCasts base l1 l2 = some .NoAlias)
    {o o' : MemoryObject} (heldV : Held M l1.ptr o) (heldW : Held M l2.ptr o') :
    o.site ≠ o'.site ∨ base l1 l2 = .NoAlias := by
  have stripped : ∀ v o, Held M v o → Held M (stripPointerCasts v) o := by
    intro v o held
    have chain := strips v
    generalize stripPointerCasts v = w at chain ⊢
    induction chain with
    | refl => exact held
    | tail _ one ih => exact strip_held plain overridable one ih
  have typed : ∀ v o, Held M v o → v.isPointerTy = true :=
    fun v o ⟨_, _, _, _, _, _, holds, _⟩ => pointer_of_holds holds
  have held1 := stripped _ _ heldV
  have held2 := stripped _ _ heldW
  unfold Finished.aliasQuery at answer
  simp only [size1, size2, or_self, if_false, typed _ _ held1, typed _ _ held2, Bool.not_true,
    Bool.or_self, Bool.false_eq_true] at answer
  split at answer
  · cases answer
  obtain ⟨result, asked, answer⟩ := bind_some answer
  split at answer
  · obtain rfl := Option.some.inj answer
    exact .inl (sites_apart plain overridable safe run asked held1 held2)
  · exact .inr (Option.some.inj answer)

/-- Whatever is asked next, a NoAlias answer about two locations holds in every state, if that
    analysis is right where its answer is used. -/
theorem aliasQuery_sound {zeroIndices : InstId → Bool} {stripPointerCasts : PtrValue → PtrValue}
    (strips : ∀ v, Relation.ReflTransGen (StripsCast M zeroIndices) v (stripPointerCasts v))
    {base : Location → Location → AliasResult}
    (next : ∀ l1 l2, base l1 l2 = .NoAlias → ∀ s, Reachable M s → ∀ φ ∈ s.frames,
      ¬ Overlap φ l1 l2) {l1 l2 : Location}
    (answer : R.aliasQuery stripPointerCasts base l1 l2 = some .NoAlias) {s : State}
    (reachable : Reachable M s) {φ : Frame} (mem : φ ∈ s.frames)
    (pointer1 : l1.ptr.isPointerIn M φ.function = true)
    (pointer2 : l2.ptr.isPointerIn M φ.function = true) : ¬ Overlap φ l1 l2 := by
  rintro ⟨a, b, holds1, holds2, same, byte, inside1, inside2⟩
  have size1 : l1.size ≠ 0 := by omega
  have size2 : l2.size ≠ 0 := by omega
  have held1 : Held M l1.ptr a.object := ⟨s, reachable, φ, mem, pointer1, a, holds1, rfl⟩
  have held2 : Held M l2.ptr b.object := ⟨s, reachable, φ, mem, pointer2, b, holds2, rfl⟩
  rcases aliasQuery_cases plain overridable safe run strips size1 size2 answer held1 held2 with
    apart | asked
  · exact apart (by rw [same])
  · exact next l1 l2 asked s reachable φ mem ⟨a, b, holds1, holds2, same, byte, inside1, inside2⟩

/-- A pointer that ever holds an address has a points-to set, with the site of the address. -/
theorem getPointsToSet_sound {s : State} (reachable : Reachable M s) {φ : Frame}
    (mem : φ ∈ s.frames) {v : PtrValue} (pointer : v.isPointerIn M φ.function = true) {a : Address}
    (holds : φ.eval v = some a) :
    ∃ list, R.getPointsToSet M v = some list ∧ a.object.site ∈ list := by
  obtain ⟨n, b, node, object, inPts⟩ :=
    held_known plain overridable safe run ⟨s, reachable, φ, mem, pointer, a, holds, rfl⟩
  have known : n ≠ UniversalPtrIndex := by
    rintro rfl
    rw [valueNode_index] at node
    obtain ⟨p, place, index⟩ := Option.bind_eq_some_iff.mp node
    obtain rfl := index_apart run index (q := .universalPtr) rfl
    exact pointer_place_ne pointer place
  have listed : ∃ list, R.getPointsToSet M v = some list := by
    unfold Finished.getPointsToSet
    simp only [node, known, if_false]
    split <;> exact ⟨_, rfl⟩
  obtain ⟨list, answer⟩ := listed
  exact ⟨list, answer, (mem_getPointsToSet run answer node).mpr ⟨b, inPts, .object a.object.site,
    rfl, object⟩⟩

/-- What is called constant by this analysis is nothing but constant variables. -/
theorem pointsToConstantMemory_sound {isConstant : GlobalId → Bool} {base : PtrValue → Bool}
    {v : PtrValue} (answer : R.pointsToConstantMemory M isConstant base v = true)
    (own : base v = false) {s : State} (reachable : Reachable M s) {φ : Frame}
    (mem : φ ∈ s.frames) (pointer : v.isPointerIn M φ.function = true) {a : Address}
    (holds : φ.eval v = some a) : ∃ g, a.object = .global g ∧ isConstant g = true := by
  have sound := sound_of_run safe run
  obtain ⟨n, b, node, object, inPts⟩ :=
    held_known plain overridable safe run ⟨s, reachable, φ, mem, pointer, a, holds, rfl⟩
  have value : R.getValueForNode M b = some a.object.site :=
    (getValueForNode_iff run).mpr ⟨.object a.object.site, rfl, object⟩
  unfold Finished.pointsToConstantMemory at answer
  rw [node] at answer
  cases entry : R.ptsGraph n with
  | none => simp [entry, own] at answer
  | some ptsSet =>
    have all : ∀ o ∈ ptsSet, R.isConstantMemory M isConstant o = true := by
      simpa [entry, own, SparseBitVector.mem_bits] using answer
    have root := (sound.root n (by simp [entry])).1
    obtain ⟨set, there, inSet⟩ := inPts
    rw [root, entry] at there
    have constant := all b (Option.some.inj there ▸ inSet)
    unfold Finished.isConstantMemory at constant
    rw [value] at constant
    cases isObject : a.object with
    | global g =>
      rw [isObject] at constant
      exact ⟨g, rfl, constant⟩
    | stack site number =>
      rw [isObject] at constant
      cases constant

end Sound

theorem castCells_overridable : OverridableNull castCells := by
  intro G mem overridden
  rw [List.mem_singleton.mp mem] at overridden
  cases overridden

theorem castCells_cast : ∃ s, Reachable castCells s ∧ ∃ φ ∈ s.frames,
    (PtrValue.isPointerIn castCells φ.function (.instruction 1) = true ∧
      φ.eval (.instruction 1) = some ⟨.stack 0 0, 0⟩) ∧
    PtrValue.isPointerIn castCells φ.function (.instruction 2) = true ∧
      φ.eval (.instruction 2) = some ⟨.global 1, 0⟩ := by
  let main := castCells.functions[0]
  let memory : Memory := fun _ => none
  let φ₀ := Frame.start main main.blocks[0] []
  let φ₁ := φ₀.advance main.insts[0] (some ⟨.stack 0 0, 0⟩) (main.insts.drop 1)
  let φ₂ := φ₁.advance main.insts[1] (φ₁.eval (.instruction 0)) (main.insts.drop 2)
  let φ₃ := φ₂.advance main.insts[2]
    (φ₂.eval (.constant (.globalValue (.globalVariable 1)))) (main.insts.drop 3)
  have starts : Starts castCells ⟨[φ₀], memory, 0⟩ :=
    .start (List.getElem_mem _) rfl rfl (by decide) (fun a v holds => nomatch holds)
  have first : Step castCells ⟨[φ₀], memory, 0⟩ ⟨[φ₁], memory, 1⟩ := .alloca rfl rfl
  have second : Step castCells ⟨[φ₁], memory, 1⟩ ⟨[φ₂], memory, 1⟩ := .compute rfl (.bitCast _)
  have third : Step castCells ⟨[φ₂], memory, 1⟩ ⟨[φ₃], memory, 1⟩ := .compute rfl (.bitCast _)
  refine ⟨⟨[φ₃], memory, 1⟩, ⟨_, starts, ?_⟩, φ₃, List.mem_cons_self .., ⟨rfl, rfl⟩, rfl, rfl⟩
  exact ((Relation.ReflTransGen.single first).tail second).tail third

def castCells.strip : PtrValue → PtrValue
  | .instruction 1 => .instruction 0
  | .instruction 2 => .constant (.globalValue (.globalVariable 1))
  | v => v

theorem castCells_strips (v : PtrValue) :
    Relation.ReflTransGen (StripsCast castCells fun _ => false) v (castCells.strip v) := by
  have main := List.getElem_mem (l := castCells.functions) Nat.zero_lt_one
  unfold castCells.strip
  split
  · exact .single (.bitCast main (I := castCells.functions[0].insts[1]) (List.getElem_mem _) rfl)
  · exact .single (.bitCast main (I := castCells.functions[0].insts[2]) (List.getElem_mem _) rfl)
  · exact .refl

/-- The two cells do not overlap, whatever the casts. -/
theorem castCells_apart : ∃ R s, runOnModule (hashed false true) (fun _ => "main") 50 castCells =
    some R ∧ Reachable castCells s ∧ ∃ φ ∈ s.frames,
      (φ.eval (.instruction 1)).isSome = true ∧ (φ.eval (.instruction 2)).isSome = true ∧
      ¬ Overlap φ ⟨.instruction 1, 4⟩ ⟨.instruction 2, 4⟩ := by
  have answer : (runOnModule (hashed false true) (fun _ => "main") 50 castCells).bind (fun R =>
      R.aliasQuery castCells.strip (fun _ _ => .MayAlias) ⟨.instruction 1, 4⟩ ⟨.instruction 2, 4⟩) =
        some .NoAlias := by decide +kernel
  obtain ⟨R, run, answer⟩ := Option.bind_eq_some_iff.mp answer
  obtain ⟨s, reachable, φ, mem, ⟨pointer1, holds1⟩, pointer2, holds2⟩ := castCells_cast
  have next : ∀ l1 l2 : Location, AliasResult.MayAlias = .NoAlias → ∀ s, Reachable castCells s →
      ∀ φ ∈ s.frames, ¬ Overlap φ l1 l2 := fun _ _ no => nomatch no
  exact ⟨R, s, run, reachable, φ, mem, by rw [holds1]; rfl, by rw [holds2]; rfl,
    aliasQuery_sound castCells_plain castCells_overridable (fun _ _ => hashed_safe) run
      castCells_strips next answer reachable mem pointer1 pointer2⟩

theorem castCells_listed : ∃ R list,
    runOnModule (hashed false true) (fun _ => "main") 50 castCells = some R ∧
      R.getPointsToSet castCells (.instruction 1) = some list ∧ .instruction 0 ∈ list := by
  obtain ⟨R, run⟩ : ∃ R, runOnModule (hashed false true) (fun _ => "main") 50 castCells =
      some R := Option.isSome_iff_exists.mp (by decide +kernel)
  obtain ⟨s, reachable, φ, mem, ⟨pointer, holds⟩, _⟩ := castCells_cast
  obtain ⟨list, known, listed⟩ := getPointsToSet_sound castCells_plain castCells_overridable
    (fun _ _ => hashed_safe) run reachable mem pointer holds
  exact ⟨R, list, run, known, listed⟩

theorem castCells_constant : ∃ R s, runOnModule (hashed false true) (fun _ => "main") 50 castCells =
    some R ∧ Reachable castCells s ∧ ∃ φ ∈ s.frames, ∃ a, φ.eval (.instruction 2) = some a ∧
      ∃ g, a.object = .global g ∧ (g == 1) = true := by
  have answer : (runOnModule (hashed false true) (fun _ => "main") 50 castCells).map (fun R =>
      R.pointsToConstantMemory castCells (· == 1) (fun _ => false) (.instruction 2)) =
        some true := by decide +kernel
  obtain ⟨R, run, answer⟩ := Option.map_eq_some_iff.mp answer
  obtain ⟨s, reachable, φ, mem, _, pointer, holds⟩ := castCells_cast
  exact ⟨R, s, run, reachable, φ, mem, _, holds, pointsToConstantMemory_sound castCells_plain
    castCells_overridable (fun _ _ => hashed_safe) run answer rfl reachable mem pointer
    holds⟩

end ProgramSlicer.Andersen
