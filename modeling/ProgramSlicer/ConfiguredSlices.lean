import ProgramSlicer.CallSites
import ProgramSlicer.SliceCriteria
import ProgramSlicer.SliceAlgebra

/-!
The whole passes, from the text of `slice.conf` to the sliced module: they slice for the
instructions that the entries of the file name, and do nothing else with the file.
-/
namespace ProgramSlicer
open CallStrings ClosureMarking FormattedInput FoldRules SDG

/-- `runOnModule` with the file that it reads, which it may fail to open. The nodes that
    `readInit` makes stay in the map. -/
def BackSlice.runOnFile (fuel : Nat) (names : FuncId → List Char) (fin : Option Reading)
    (ord : Order NodePtr) (A : Analyses) (M : Module) : Option (List Function) := do
  let s ← SDG.runOnModule A M
  match fin with
  | none => some M.functions
  | some r =>
    let marks ← readInit fuel names M s.instNodeMap r
    let s := { s with instNodeMap := marks.instNodeMap }
    let marked ← markVerticesOfBackSlice ord s marks.markedNodes
    sliceModule s marked M

def ForwardSlice.runOnFile (fuel : Nat) (names : FuncId → List Char) (fin : Option Reading)
    (ord : Order NodePtr) (A : Analyses) (M : Module) : Option (List Function) := do
  let s ← SDG.runOnModule A M
  match fin with
  | none => some M.functions
  | some r =>
    let marks ← readInit fuel names M s.instNodeMap r
    let s := { s with instNodeMap := marks.instNodeMap }
    let marked ← markVerticesOfForwardSlice ord s marks.markedNodes
    sliceModule s marked M

section Maps
variable {s : SDG} {instNodeMap : NodeMap InstId}

theorem isInstruction_index (i : InstId) (I : Instruction) :
    isInstruction { s with instNodeMap := instNodeMap.index i } I =
      isInstruction { s with instNodeMap } I := by
  unfold isInstruction NodeMap.index
  simp only [NodeMap.find_insert]
  split
  · rename_i missing
    rw [missing.1]
    rfl
  · rfl

variable {names : FuncId → List Char} {M : Module} {r : Reading} {fuel : Nat}

theorem markListed_isInstruction {σ : Type} {mark : InstId → σ → σ} (map : σ → NodeMap InstId)
    (step : ∀ i marks, map (mark i marks) = (map marks).index i) (list : List Char → List Int)
    {marks : σ} (start : map marks = s.instNodeMap) :
    isInstruction { s with instNodeMap := map (markListed mark names list M marks) } =
      isInstruction s := by
  refine markListed_keeps (P := fun marks : σ =>
    isInstruction { s with instNodeMap := map marks } = isInstruction s) ?_ (by rw [start])
  intro i marks same
  rw [step, ← same]
  exact funext fun I => isInstruction_index i I

theorem backSlice_isInstruction {marks : BackSlice.BoundedMarks}
    (read : BackSlice.readInit fuel names M s.instNodeMap r = some marks) :
    isInstruction { s with instNodeMap := marks.instNodeMap } = isInstruction s := by
  obtain ⟨r', _, made⟩ := bind_some read
  rw [← Option.some.inj made]
  exact markListed_isInstruction (fun marks : BackSlice.BoundedMarks => marks.instNodeMap)
    (fun _ _ => rfl) _ rfl

theorem forwardSlice_isInstruction {marks : Marks}
    (read : ForwardSlice.readInit fuel names M s.instNodeMap r = some marks) :
    isInstruction { s with instNodeMap := marks.instNodeMap } = isInstruction s := by
  obtain ⟨r', _, made⟩ := bind_some read
  rw [← Option.some.inj made]
  exact markListed_isInstruction Marks.instNodeMap (fun _ _ => rfl) _ rfl

theorem sliceModule_map (same : isInstruction { s with instNodeMap } = isInstruction s)
    (marked : List NodePtr) :
    BackSlice.sliceModule { s with instNodeMap } marked M = BackSlice.sliceModule s marked M ∧
      ForwardSlice.sliceModule { s with instNodeMap } marked M =
        ForwardSlice.sliceModule s marked M := by
  unfold BackSlice.sliceModule ForwardSlice.sliceModule
  rw [same]
  exact ⟨rfl, rfl⟩

end Maps

section File
variable {A : Analyses} {M : Module} {s : SDG} {names : FuncId → List Char} {r : Reading}
  {fuel : Nat} {lines : List Line} {criterion : List InstId}
  (named : ∀ i, i ∈ criterion ↔ ∃ l ∈ lines, Names names M l i)
include named

theorem marks_of_named {markedNodes : List NodePtr}
    (loaded : LoadedExactly names M lines markedNodes) (n : NodePtr) :
    n ∈ markedNodes ↔ n ∈ criterion.map .inst := by
  rw [loaded, List.mem_map]
  constructor
  · rintro ⟨l, hl, i, here, rfl⟩
    exact ⟨i, (named i).mpr ⟨l, hl, here⟩, rfl⟩
  · rintro ⟨i, listed, rfl⟩
    obtain ⟨l, hl, here⟩ := (named i).mp listed
    exact ⟨l, hl, i, here, rfl⟩

variable (run : runOnModule A M = some s) (ord : Order NodePtr)
include run

theorem backSlice_file {marks : BackSlice.BoundedMarks}
    (read : BackSlice.readInit fuel names M s.instNodeMap r = some marks)
    (loaded : LoadedExactly names M lines marks.markedNodes) :
    BackSlice.runOnFile fuel names (some r) ord A M = BackSlice.runOnModule ord A M criterion := by
  obtain ⟨marked, mark, mem⟩ :=
    markVerticesOfBackSlice_spec (runOnModule_built run) ord marks.markedNodes
  obtain ⟨marked', mark', mem'⟩ :=
    markVerticesOfBackSlice_spec (runOnModule_built run) ord (criterion.map .inst)
  have same : ∀ n, n ∈ marked ↔ n ∈ marked' := by
    intro n
    rw [mem, mem']
    simp only [marks_of_named named loaded]
  have graph : BackSlice.markVerticesOfBackSlice ord { s with instNodeMap := marks.instNodeMap }
      marks.markedNodes = some marked := mark
  have map := sliceModule_map (M := M) (backSlice_isInstruction read) marked
  simp only [BackSlice.runOnFile, BackSlice.runOnModule, run, read, graph, mark',
    Option.bind_eq_bind, Option.bind_some]
  exact map.1.trans (sliceModule_congr same).1

theorem forwardSlice_file {marks : Marks}
    (read : ForwardSlice.readInit fuel names M s.instNodeMap r = some marks)
    (loaded : LoadedExactly names M lines marks.markedNodes) :
    ForwardSlice.runOnFile fuel names (some r) ord A M =
      ForwardSlice.runOnModule ord A M criterion := by
  obtain ⟨marked, mark, mem⟩ :=
    markVerticesOfForwardSlice_spec (runOnModule_built run) ord marks.markedNodes
  obtain ⟨marked', mark', mem'⟩ :=
    markVerticesOfForwardSlice_spec (runOnModule_built run) ord (criterion.map .inst)
  have same : ∀ n, n ∈ marked ↔ n ∈ marked' := by
    intro n
    rw [mem, mem']
    simp only [marks_of_named named loaded]
  have graph : ForwardSlice.markVerticesOfForwardSlice ord
      { s with instNodeMap := marks.instNodeMap } marks.markedNodes = some marked := mark
  have map := sliceModule_map (M := M) (forwardSlice_isInstruction read) marked
  simp only [ForwardSlice.runOnFile, ForwardSlice.runOnModule, run, read, graph, mark',
    Option.bind_eq_bind, Option.bind_some]
  exact map.2.trans (sliceModule_congr same).2

end File

/-- On a file that lists entries each pass comes to an end with a slice exactly if its numbers
    are in range and slicing succeeds for the instructions that the entries name, and then that
    slice is the result. -/
theorem file_slices {names : FuncId → List Char} {lines : List Line} {newline : Bool}
    {criterion : List InstId} {M : Module}
    (named : ∀ i, i ∈ criterion ↔ ∃ l ∈ inserted lines newline, Names names M l i)
    (instNum lower upper : Int) (ord : Order NodePtr) (A : Analyses) (fs : List Function) :
    ((∃ fuel, BackSlice.runOnFile fuel names
        (some (opened (written lines newline) instNum lower upper)) ord A M = some fs) ↔
      Fits lines newline ∧ BackSlice.runOnModule ord A M criterion = some fs) ∧
    ((∃ fuel, ForwardSlice.runOnFile fuel names
        (some (opened (written lines newline) instNum lower upper)) ord A M = some fs) ↔
      Fits lines newline ∧ ForwardSlice.runOnModule ord A M criterion = some fs) := by
  constructor
  · constructor
    · intro ⟨fuel, result⟩
      obtain ⟨s, run, rest⟩ := bind_some result
      obtain ⟨marks, read, _⟩ := bind_some rest
      obtain ⟨fits, loaded, _⟩ := backSlice_marks read
      exact ⟨fits, (backSlice_file named run ord read loaded).symm.trans result⟩
    · intro ⟨fits, result⟩
      obtain ⟨s, run, _⟩ := bind_some result
      obtain ⟨⟨fuel, marks, read⟩, _⟩ :=
        @readInit_written names M lines newline s.instNodeMap instNum lower upper fits
      obtain ⟨_, loaded, _⟩ := backSlice_marks read
      exact ⟨fuel, (backSlice_file named run ord read loaded).trans result⟩
  · constructor
    · intro ⟨fuel, result⟩
      obtain ⟨s, run, rest⟩ := bind_some result
      obtain ⟨marks, read, _⟩ := bind_some rest
      obtain ⟨fits, loaded⟩ := forwardSlice_marks read
      exact ⟨fits, (forwardSlice_file named run ord read loaded).symm.trans result⟩
    · intro ⟨fits, result⟩
      obtain ⟨s, run, _⟩ := bind_some result
      obtain ⟨_, fuel, marks, read⟩ :=
        @readInit_written names M lines newline s.instNodeMap instNum lower upper fits
      obtain ⟨_, loaded⟩ := forwardSlice_marks read
      exact ⟨fuel, (forwardSlice_file named run ord read loaded).trans result⟩

theorem names_mainLine (number lower upper : Numeral) (i : InstId) :
    Names (fun _ => "main".toList) straightLine (mainLine number lower upper) i ↔
      i < 2 ∧ number.value = i := by
  constructor
  · rintro ⟨F, hF, _, k, I, at_k, rfl, value⟩
    obtain rfl := List.mem_singleton.mp hF
    match k, at_k with
    | 0, at_k =>
      obtain rfl := Option.some.inj at_k
      exact ⟨by decide, value⟩
    | 1, at_k =>
      obtain rfl := Option.some.inj at_k
      exact ⟨by decide, value⟩
  · rintro ⟨low, value⟩
    match i, low with
    | 0, _ => exact ⟨_, List.mem_singleton_self _, rfl, 0, _, rfl, rfl, value⟩
    | 1, _ => exact ⟨_, List.mem_singleton_self _, rfl, 1, _, rfl, rfl, value⟩

theorem twoCriteria_named (i : InstId) : i ∈ [0, 1] ↔
    ∃ l ∈ inserted twoCriteria true, Names (fun _ => "main".toList) straightLine l i := by
  have below : ∀ k : Nat, (k = 0 ∨ k = 1 ↔ k < 2 ∧ (0 : Int) = k ∨ k < 2 ∧ (1 : Int) = k) := by
    omega
  have zero : (singleDigit '0' rfl).value = 0 := rfl
  have one : (singleDigit '1' rfl).value = 1 := rfl
  simp only [inserted, twoCriteria, ↓reduceIte, List.mem_cons, List.not_mem_nil, or_false,
    exists_eq_or_imp, exists_eq_left, names_mainLine, zero, one]
  exact below i

theorem twoCriteria_sliced : ∃ fs fs',
    BackSlice.runOnModule Order.head blockPerFunction straightLine [0, 1] = some fs ∧
    ForwardSlice.runOnModule Order.head blockPerFunction straightLine [0, 1] = some fs' ∧
    (∃ fuel, BackSlice.runOnFile fuel (fun _ => "main".toList)
      (some (opened (written twoCriteria true) 0 0 0)) Order.head blockPerFunction straightLine =
        some fs) ∧
    ∃ fuel, ForwardSlice.runOnFile fuel (fun _ => "main".toList)
      (some (opened (written twoCriteria true) 0 0 0)) Order.head blockPerFunction straightLine =
        some fs' := by
  obtain ⟨fs, back⟩ : ∃ fs, BackSlice.runOnModule Order.head blockPerFunction straightLine [0, 1] =
    some fs := Option.isSome_iff_exists.mp (by decide +kernel)
  obtain ⟨fs', forward⟩ : ∃ fs, ForwardSlice.runOnModule Order.head blockPerFunction straightLine
    [0, 1] = some fs := Option.isSome_iff_exists.mp (by decide +kernel)
  have fits : Fits twoCriteria true := by
    refine ⟨fun l hl => ?_, fun l hl => ?_⟩
    · rcases List.mem_pair.mp hl with rfl | rfl <;> exact ⟨by decide, by decide⟩
    · rcases List.mem_pair.mp hl with rfl | rfl <;> decide
  exact ⟨fs, fs', back, forward,
    (file_slices twoCriteria_named 0 0 0 _ _ fs).1.mpr ⟨fits, back⟩,
    (file_slices twoCriteria_named 0 0 0 _ _ fs').2.mpr ⟨fits, forward⟩⟩

end ProgramSlicer
