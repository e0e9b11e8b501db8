import ProgramSlicer.Andersen.AnalysisClients
import ProgramSlicer.SliceMeaning

/-!
From the pointer analysis to the dependence graph. The alias sets that step 4 of
`SDG::runOnModule` reads come from a tracker that asks `AndersenAA`, so whatever a load may
find in memory has an edge to it.
-/
namespace ProgramSlicer.Andersen
open Collection SDG

/-- How the slicer's passes see a value; what they take no notice of has a number. -/
def PtrValue.operand (number : PtrValue → Nat) : PtrValue → Value
  | instruction i => .inst i
  | argument a => .arg a
  | constant (.globalValue (.function f)) => .func f
  | v => .other (number v)

/-- The pointer operand of a memory access. -/
def Operation.accessedPointer : Operation → Option PtrValue
  | load p | store _ p => some p
  | _ => none

/-- Both analyses look at one module: its stores and loads, with their pointers. -/
structure SameAccesses (number : PtrValue → Nat) (P : PtrModule) (M : Module) : Prop where
  store : ∀ F ∈ P.functions, ∀ I ∈ F.insts, ∀ v p, I.op = .store v p → ∃ S ∈ M.insts,
    S.id = I.id ∧ S.opcode = .store ∧ S.storePointer = some (p.operand number)
  load : ∀ F ∈ P.functions, ∀ I ∈ F.insts, ∀ p, I.op = .load p → ∃ L ∈ M.insts,
    L.id = I.id ∧ L.opcode = .load ∧ L.loadPointer = some (p.operand number)

/-- What `AliasSetTracker` promises: pointers that it keeps apart never alias, as far as the
    analysis knows that it asks. -/
def Tracks (A : Analyses) (number : PtrValue → Nat) (M : Module)
    (ask : PtrValue → PtrValue → Option AliasResult) : Prop :=
  ∀ v w, M.Accesses (v.operand number) → M.Accesses (w.operand number) →
    w.operand number ∉ A.aliasSet (v.operand number) → ask v w = some .NoAlias

def Touches (P : PtrModule) (I : PtrInstruction) (o : MemoryObject) : Prop :=
  ∃ s, Reachable P s ∧ ∃ φ ∈ s.frames, ∃ rest, φ.rest = I :: rest ∧
    ∃ p, I.op.accessedPointer = some p ∧ ∃ a, φ.eval p = some a ∧ a.object = o

section Accesses
variable {P : PtrModule} {M : Module} {number : PtrValue → Nat}

theorem accessed_pointer {F : PtrFunction} {I : PtrInstruction} (plain : I.isPlain P F = true)
    {p : PtrValue} (accessed : I.op.accessedPointer = some p) : p.isPointerIn P F = true := by
  unfold PtrInstruction.isPlain at plain
  revert plain accessed
  cases I.op with
  | load q =>
    intro plain accessed
    obtain rfl := Option.some.inj accessed
    exact plain
  | store v q =>
    intro plain accessed
    obtain rfl := Option.some.inj accessed
    exact (Bool.and_eq_true_iff.mp plain).1
  | _ =>
    intro _ accessed
    cases accessed

theorem held_of_touches (plain : P.Plain) (overridable : OverridableNull P) {I : PtrInstruction}
    {o : MemoryObject} (touches : Touches P I o) : ∃ F ∈ P.functions, I ∈ F.insts ∧
      ∃ p, I.op.accessedPointer = some p ∧ Held P p o := by
  obtain ⟨A, _, collected⟩ := collectConstraints_spec noLibrary plain
  obtain ⟨s, reachable, φ, mem, rest, next, p, accessed, a, holds, isObject⟩ := touches
  have frame := (reachable_inv collected plain overridable reachable).frames φ mem
  have pointer := accessed_pointer (next_plain plain frame next) accessed
  exact ⟨φ.function, frame.function, next_mem frame next, p, accessed,
    s, reachable, φ, mem, pointer, a, holds, isObject⟩

end Accesses

section Connected
variable {S : Settings} {names : FuncId → String} {fuel : Nat} {P : PtrModule} {R : Finished}
  (plain : P.Plain) (overridable : OverridableNull P)
  (safe : ∀ A, collectConstraints (addConstraintForExternalLibrary names P) P = some A →
    S.Safe A.nodeFactory.numNodes A.constraints)
  (run : runOnModule S names fuel P = some R)
  {zeroIndices : InstId → Bool} {stripPointerCasts : PtrValue → PtrValue}
  (strips : ∀ v, Relation.ReflTransGen (StripsCast P zeroIndices) v (stripPointerCasts v))
  {base : Location → Location → AliasResult}
  (other : ∀ l1 l2, base l1 l2 = .NoAlias → ∀ o, Held P l1.ptr o → ¬ Held P l2.ptr o)
  {size : PtrValue → Nat} (sized : ∀ v, size v ≠ 0)
  {A : Analyses} {M : Module} {number : PtrValue → Nat}
  (tracks : Tracks A number M fun v w =>
    R.aliasQuery stripPointerCasts base ⟨v, size v⟩ ⟨w, size w⟩)
include plain overridable safe run strips other sized tracks

theorem together {v w : PtrValue} (accessV : M.Accesses (v.operand number))
    (accessW : M.Accesses (w.operand number)) {o : MemoryObject} (heldV : Held P v o)
    (heldW : Held P w o) : w.operand number ∈ A.aliasSet (v.operand number) := by
  by_contra apart
  have answer := tracks v w accessV accessW apart
  rcases aliasQuery_cases plain overridable safe run strips (sized v) (sized w) answer heldV heldW
    with different | asked
  · exact different rfl
  · exact other _ _ asked o heldV heldW

/-- Wherever a store and a load go to one object, in one execution or in two, the graph has a
    flow edge from the store to the load. -/
theorem memoryFlow_connected (same : SameAccesses number P M) (operands : M.MemoryOperands)
    {s : SDG} (built : SDG.runOnModule A M = some s) {I J : PtrInstruction} {v p q : PtrValue}
    (store : I.op = .store v p) (load : J.op = .load q) {o : MemoryObject}
    (writes : Touches P I o) (reads : Touches P J o) :
    HasFlowEdge s (.inst I.id) (.inst J.id) := by
  obtain ⟨F, hF, hI, p', accessedP, heldP⟩ := held_of_touches plain overridable writes
  obtain ⟨G, hG, hJ, q', accessedQ, heldQ⟩ := held_of_touches plain overridable reads
  rw [store] at accessedP
  rw [load] at accessedQ
  obtain rfl := Option.some.inj accessedP
  obtain rfl := Option.some.inj accessedQ
  obtain ⟨T, hT, idT, isStore, pointer⟩ := same.store F hF I hI v p store
  obtain ⟨L, hL, idL, isLoad, loaded⟩ := same.load G hG J hJ q load
  have inSet := together plain overridable safe run strips other sized tracks
    ⟨T, hT, .inr ⟨isStore, pointer⟩⟩ ⟨L, hL, .inl ⟨isLoad, loaded⟩⟩ heldP heldQ
  obtain ⟨s1, s2, s3, s4, one, two, three, four, done⟩ := runOnModule_cases built
  have instruction := (generateDefNodeMap_total_iff operands).mp ⟨s4, four⟩ T hT isStore _ pointer
    _ inSet
  rw [← idT, ← idL, done]
  exact (memoryEdge_iff operands (afterStepThree one two three) four hT isStore pointer hL isLoad
    loaded).mpr ⟨inSet, instruction⟩

/-- The condition on alias sets under which slices mean something, for an interpretation whose
    accesses are those of executions. -/
theorem aliasesFound_of_analysis {V : Type} {J : Interpretation V}
    {inObject : V → MemoryObject → Prop}
    (apart : ∀ a o o', inObject a o → inObject a o' → o = o')
    (accesses : ∀ x a, M.Accesses x → J.mayAccess x a = true →
      ∃ v o, v.operand number = x ∧ Held P v o ∧ inObject a o) : A.AliasesFound M J := by
  intro x y a accessX accessY meetsX meetsY
  obtain ⟨v, o, rfl, heldV, inO⟩ := accesses x a accessX meetsX
  obtain ⟨w, o', rfl, heldW, inO'⟩ := accesses y a accessY meetsY
  obtain rfl := apart a o o' inO inO'
  exact together plain overridable safe run strips other sized tracks accessX accessY heldV heldW

end Connected

def cellRead : PtrModule where
  globals := []
  functions := [⟨0, [], false, false, false, [⟨0, [⟨0, true, .alloca⟩,
    ⟨1, false, .store .scalar (.instruction 0)⟩, ⟨2, false, .load (.instruction 0)⟩,
    ⟨3, false, .ret none⟩]⟩]⟩]
  global_nodup := List.nodup_nil
  func_nodup := by decide
  inst_nodup := by decide
  arg_nodup := by decide

theorem cellRead_plain : cellRead.Plain := ⟨nofun, by decide⟩

theorem cellRead_touches :
    Touches cellRead ⟨1, false, .store .scalar (.instruction 0)⟩ (.stack 0 0) ∧
    Touches cellRead ⟨2, false, .load (.instruction 0)⟩ (.stack 0 0) := by
  let main := cellRead.functions[0]
  let memory : Memory := fun _ => none
  let φ₀ := Frame.start main main.blocks[0] []
  let φ₁ := φ₀.advance main.insts[0] (some ⟨.stack 0 0, 0⟩) (main.insts.drop 1)
  let φ₂ := φ₁.advance main.insts[1] none (main.insts.drop 2)
  have starts : Starts cellRead ⟨[φ₀], memory, 0⟩ :=
    .start (List.getElem_mem _) rfl rfl (by decide) (fun a v holds => nomatch holds)
  have first : Step cellRead ⟨[φ₀], memory, 0⟩ ⟨[φ₁], memory, 1⟩ := .alloca rfl rfl
  have stored : Stored memory memory ⟨.stack 0 0, 0⟩ none := ⟨rfl, fun _ _ => .inl rfl⟩
  have second : Step cellRead ⟨[φ₁], memory, 1⟩ ⟨[φ₂], memory, 1⟩ := .store rfl rfl rfl stored
  have one := Relation.ReflTransGen.single first
  exact ⟨⟨_, ⟨_, starts, one⟩, φ₁, List.mem_cons_self .., _, rfl, _, rfl, _, rfl, rfl⟩,
    ⟨_, ⟨_, starts, one.tail second⟩, φ₂, List.mem_cons_self .., _, rfl, _, rfl, _, rfl, rfl⟩⟩

theorem cellRead_same :
    SameAccesses (fun _ => 0) cellRead (storeThenLoadFrom (.inst 0)) := by
  constructor
  · intro F hF I hI v p op
    simp only [cellRead, List.mem_singleton] at hF
    subst hF
    simp only [PtrFunction.insts, List.flatMap_cons, List.flatMap_nil, List.append_nil,
      List.mem_cons, List.not_mem_nil, or_false] at hI
    rcases hI with rfl | rfl | rfl | rfl <;> cases op
    exact ⟨_, List.getElem_mem (l := (storeThenLoadFrom (.inst 0)).insts) (n := 1) (by decide),
      rfl, rfl, rfl⟩
  · intro F hF I hI p op
    simp only [cellRead, List.mem_singleton] at hF
    subst hF
    simp only [PtrFunction.insts, List.flatMap_cons, List.flatMap_nil, List.append_nil,
      List.mem_cons, List.not_mem_nil, or_false] at hI
    rcases hI with rfl | rfl | rfl | rfl <;> cases op
    exact ⟨_, List.getElem_mem (l := (storeThenLoadFrom (.inst 0)).insts) (n := 2) (by decide),
      rfl, rfl, rfl⟩

theorem cellRead_accesses {x : Value} (accesses : (storeThenLoadFrom (.inst 0)).Accesses x) :
    x = .inst 0 := by
  simpa [Module.Accesses, Module.insts, Function.insts, storeThenLoadFrom, Instruction.loadPointer,
    Instruction.storePointer, eq_comm] using accesses

theorem cellRead_tracks (ask : PtrValue → PtrValue → Option AliasResult) :
    Tracks (oneAddress (.inst 0)) (fun _ => 0) (storeThenLoadFrom (.inst 0)) ask := by
  intro v w accessV accessW apart
  rw [cellRead_accesses accessV, cellRead_accesses accessW] at apart
  exact absurd (List.mem_singleton.mpr rfl) apart

theorem cellRead_run :
    ∃ R, runOnModule (hashed false true) (fun _ => "main") 50 cellRead = some R :=
  Option.isSome_iff_exists.mp (by decide +kernel)

theorem cellRead_connected : ∃ s,
    SDG.runOnModule (oneAddress (.inst 0)) (storeThenLoadFrom (.inst 0)) = some s ∧
    HasFlowEdge s (.inst 1) (.inst 2) := by
  obtain ⟨R, run⟩ := cellRead_run
  obtain ⟨s, built⟩ : ∃ s, SDG.runOnModule (oneAddress (.inst 0)) (storeThenLoadFrom (.inst 0)) =
    some s := Option.isSome_iff_exists.mp (by decide +kernel)
  have strips : ∀ v : PtrValue,
      Relation.ReflTransGen (StripsCast cellRead fun _ => false) v (id v) := fun _ => .refl
  have other : ∀ l1 l2 : Location, AliasResult.MayAlias = .NoAlias → ∀ o, Held cellRead l1.ptr o →
      ¬ Held cellRead l2.ptr o := fun _ _ no => nomatch no
  have sized : ∀ _ : PtrValue, 4 ≠ 0 := fun _ => by decide
  exact ⟨s, built, memoryFlow_connected cellRead_plain nofun (fun _ _ => hashed_safe) run strips
    other sized (cellRead_tracks _) cellRead_same (storeThenLoadFrom_operands (by decide)) built rfl
    rfl cellRead_touches.1 cellRead_touches.2⟩

/-- The cell is at address 7. -/
theorem cellRead_aliasesFound :
    (oneAddress (.inst 0)).AliasesFound (storeThenLoadFrom (.inst 0)) (adding 0) := by
  obtain ⟨R, run⟩ := cellRead_run
  have strips : ∀ v : PtrValue,
      Relation.ReflTransGen (StripsCast cellRead fun _ => false) v (id v) := fun _ => .refl
  have other : ∀ l1 l2 : Location, AliasResult.MayAlias = .NoAlias → ∀ o, Held cellRead l1.ptr o →
      ¬ Held cellRead l2.ptr o := fun _ _ no => nomatch no
  have sized : ∀ _ : PtrValue, 4 ≠ 0 := fun _ => by decide
  have apart : ∀ (a : Nat) (o o' : MemoryObject), a = 7 ∧ o = .stack 0 0 → a = 7 ∧ o' = .stack 0 0 →
      o = o' := fun _ _ _ one two => one.2.trans two.2.symm
  refine aliasesFound_of_analysis cellRead_plain nofun (fun _ _ => hashed_safe) run strips other
    sized (cellRead_tracks _) apart ?_
  intro x a _ may
  obtain ⟨rfl, rfl⟩ : x = .inst 0 ∧ a = 7 := by simpa [adding] using may
  obtain ⟨_, _, _, p, accessed, held⟩ :=
    held_of_touches cellRead_plain nofun cellRead_touches.2
  obtain rfl := Option.some.inj accessed
  exact ⟨_, _, rfl, held, rfl, rfl⟩

end ProgramSlicer.Andersen
