import ProgramSlicer.SliceMeaning

/-!
Slices as a function of the criterion. The work sets of the slicers are sets of pointers,
which yield their elements in the order of the addresses; the slice does not depend on it.
Slicing for two criteria at once gives what slicing for each of them gives.
-/
namespace ProgramSlicer
open CallStrings ClosureMarking SDG

section Marks
variable {A : Analyses} {M : Module} {s : SDG}

theorem backSlice_run (run : runOnModule A M = some s) (ord : Order NodePtr)
    (criterion : List InstId) : ∃ marked, (∀ n, n ∈ marked ↔ BackMarked s criterion n) ∧
      BackSlice.runOnModule ord A M criterion = BackSlice.sliceModule s marked M := by
  obtain ⟨marked, mark, mem⟩ := backMarked_of_run run ord criterion
  refine ⟨marked, mem, ?_⟩
  simp only [BackSlice.runOnModule, run, Option.bind_eq_bind, Option.bind_some, mark]

theorem forwardSlice_run (run : runOnModule A M = some s) (ord : Order NodePtr)
    (criterion : List InstId) : ∃ marked, (∀ n, n ∈ marked ↔
        ∃ c ∈ criterion, ∃ w, CallsFirst w ∧ Walk (Labelled s) (.inst c) w n) ∧
      ForwardSlice.runOnModule ord A M criterion = ForwardSlice.sliceModule s marked M := by
  obtain ⟨marked, mark, mem⟩ := forwardMarked_of_run run ord criterion
  refine ⟨marked, mem, ?_⟩
  simp only [ForwardSlice.runOnModule, run, Option.bind_eq_bind, Option.bind_some, mark]

variable {marked marked' : List NodePtr} (same : ∀ n, n ∈ marked ↔ n ∈ marked')
include same

theorem sliceFunction_congr : sliceFunction marked = sliceFunction marked' := by
  funext F
  unfold sliceFunction sliceBlock
  simp only [same]

theorem sliceModule_congr : BackSlice.sliceModule s marked M = BackSlice.sliceModule s marked' M ∧
    ForwardSlice.sliceModule s marked M = ForwardSlice.sliceModule s marked' M := by
  have kept : BackSlice.functionKept s marked = BackSlice.functionKept s marked' := by
    funext F
    unfold BackSlice.functionKept
    simp only [same]
  unfold BackSlice.sliceModule ForwardSlice.sliceModule
  rw [kept, sliceFunction_congr same]
  exact ⟨rfl, rfl⟩

end Marks

/-- Neither slicer depends on how sets of pointers are ordered, nor on the order or the
    repetition of lines in `slice.conf`. -/
theorem slices_unordered {A : Analyses} {M : Module} (ord ord' : Order NodePtr)
    {criterion criterion' : List InstId} (same : ∀ i, i ∈ criterion ↔ i ∈ criterion') :
    BackSlice.runOnModule ord A M criterion = BackSlice.runOnModule ord' A M criterion' ∧
      ForwardSlice.runOnModule ord A M criterion =
        ForwardSlice.runOnModule ord' A M criterion' := by
  cases run : runOnModule A M with
  | none =>
    unfold BackSlice.runOnModule ForwardSlice.runOnModule
    rw [run]
    exact ⟨rfl, rfl⟩
  | some s =>
    obtain ⟨back, memB, runB⟩ := backSlice_run run ord criterion
    obtain ⟨back', memB', runB'⟩ := backSlice_run run ord' criterion'
    obtain ⟨forward, memF, runF⟩ := forwardSlice_run run ord criterion
    obtain ⟨forward', memF', runF'⟩ := forwardSlice_run run ord' criterion'
    have sameBack : ∀ n, n ∈ back ↔ n ∈ back' := by
      intro n
      rw [memB, memB']
      simp only [BackMarked, same]
    have sameForward : ∀ n, n ∈ forward ↔ n ∈ forward' := by
      intro n
      rw [memF, memF']
      simp only [same]
    rw [runB, runB', runF, runF']
    exact ⟨(sliceModule_congr sameBack).1, (sliceModule_congr sameForward).2⟩

def lastFirst : Order NodePtr where
  first _ ns := ns.getLastD (.inst 0)
  mem k n ns := by
    rw [List.getLastD_cons]
    exact List.getLastD_mem_cons

theorem readBack_unordered :
    BackSlice.runOnModule Order.head (oneAddress (.inst 0)) readBack [4, 5] =
      BackSlice.runOnModule lastFirst (oneAddress (.inst 0)) readBack [5, 4, 5] ∧
    ForwardSlice.runOnModule Order.head (oneAddress (.inst 0)) readBack [4, 5] =
      ForwardSlice.runOnModule lastFirst (oneAddress (.inst 0)) readBack [5, 4, 5] :=
  slices_unordered Order.head lastFirst fun i => by
    simp only [List.mem_cons, List.not_mem_nil, or_false]
    tauto

section Union
variable {A : Analyses} {M : Module} {s : SDG} {c₁ c₂ : List InstId}

theorem backMarked_append (n : NodePtr) :
    BackMarked s (c₁ ++ c₂) n ↔ BackMarked s c₁ n ∨ BackMarked s c₂ n := by
  unfold BackMarked
  constructor
  · rintro ⟨c, mem, path⟩
    rcases List.mem_append.mp mem with first | second
    · exact .inl ⟨c, first, path⟩
    · exact .inr ⟨c, second, path⟩
  · rintro (⟨c, mem, path⟩ | ⟨c, mem, path⟩)
    · exact ⟨c, List.mem_append_left _ mem, path⟩
    · exact ⟨c, List.mem_append_right _ mem, path⟩

theorem entries_of_slice {marked : List NodePtr} {fs : List Function}
    (slice : BackSlice.sliceModule s marked M = some fs) :
    ∀ F ∈ M.functions, BackSlice.entryAsserted s F = true := by
  unfold BackSlice.sliceModule at slice
  split at slice
  · rename_i entries
    exact List.all_eq_true.mp entries
  · cases slice

theorem function_remains_iff {marked : List NodePtr} {fs : List Function}
    (slice : BackSlice.sliceModule s marked M = some fs) (f : FuncId) :
    (∃ G ∈ fs, G.id = f) ↔ ∃ F ∈ M.functions, F.id = f ∧
      ((s.entryNodeMap.find F.id).isNone = true ∨ .entry F.id ∈ marked) := by
  constructor
  · rintro ⟨G, hG, rfl⟩
    obtain ⟨F, hF, kept, rfl⟩ := (backSlice_functions slice G).mp hG
    exact ⟨F, hF, rfl, by simpa [BackSlice.functionKept] using kept⟩
  · rintro ⟨F, hF, rfl, kept⟩
    refine ⟨sliceFunction marked F, (backSlice_functions slice _).mpr ⟨F, hF, ?_, rfl⟩, rfl⟩
    simpa [BackSlice.functionKept] using kept

end Union

/-- The slice for two criteria has exactly the instructions and the functions that the slice
    for one of them or the other has. -/
theorem backSlice_additive {A : Analyses} {M : Module} {ord ord₁ ord₂ : Order NodePtr}
    {c₁ c₂ : List InstId} {fs₁ fs₂ : List Function} (correct : A.Correct M)
    (verified : M.Verified) (grounded : M.AllGrounded)
    (first : BackSlice.runOnModule ord₁ A M c₁ = some fs₁)
    (second : BackSlice.runOnModule ord₂ A M c₂ = some fs₂) :
    ∃ fs, BackSlice.runOnModule ord A M (c₁ ++ c₂) = some fs ∧
      (∀ I ∈ M.insts, Remains fs I ↔ Remains fs₁ I ∨ Remains fs₂ I) ∧
      ∀ f, (∃ G ∈ fs, G.id = f) ↔ (∃ G ∈ fs₁, G.id = f) ∨ ∃ G ∈ fs₂, G.id = f := by
  obtain ⟨s, run, _⟩ := FoldRules.bind_some first
  obtain ⟨marked₁, mem₁, run₁⟩ := backSlice_run run ord₁ c₁
  obtain ⟨marked₂, mem₂, run₂⟩ := backSlice_run run ord₂ c₂
  obtain ⟨marked, mem, both⟩ := backSlice_run run ord (c₁ ++ c₂)
  have slice₁ := run₁.symm.trans first
  have slice₂ := run₂.symm.trans second
  obtain ⟨fs, slice⟩ := backSlice_total run (entries_of_slice slice₁) marked
  have union : ∀ n, n ∈ marked ↔ n ∈ marked₁ ∨ n ∈ marked₂ := by
    intro n
    rw [mem, mem₁, mem₂, backMarked_append]
  refine ⟨fs, both.trans slice, ?_, ?_⟩
  · intro I hI
    rw [remains_iff_marked correct verified grounded run mem slice hI,
      remains_iff_marked correct verified grounded run mem₁ slice₁ hI,
      remains_iff_marked correct verified grounded run mem₂ slice₂ hI]
    exact union _
  · intro f
    rw [function_remains_iff slice, function_remains_iff slice₁, function_remains_iff slice₂]
    simp only [union]
    grind

/-- Slicing for what main adds up and for what the callee returns. -/
theorem readBack_additive : ∃ fs₁ fs₂ fs,
    BackSlice.runOnModule Order.head (oneAddress (.inst 0)) readBack [4] = some fs₁ ∧
    BackSlice.runOnModule lastFirst (oneAddress (.inst 0)) readBack [7] = some fs₂ ∧
    BackSlice.runOnModule Order.head (oneAddress (.inst 0)) readBack ([4] ++ [7]) = some fs ∧
    ∀ I ∈ readBack.insts, Remains fs I ↔ Remains fs₁ I ∨ Remains fs₂ I := by
  obtain ⟨fs₁, first⟩ : ∃ fs, BackSlice.runOnModule Order.head (oneAddress (.inst 0)) readBack [4] =
    some fs := Option.isSome_iff_exists.mp (by decide +kernel)
  obtain ⟨fs₂, second⟩ : ∃ fs, BackSlice.runOnModule lastFirst (oneAddress (.inst 0)) readBack [7] =
    some fs := Option.isSome_iff_exists.mp (by decide +kernel)
  obtain ⟨fs, both, insts, _⟩ := backSlice_additive (singleBlocks_correct rfl (by decide))
    (by decide) readBack_grounded first second
  exact ⟨fs₁, fs₂, fs, first, second, both, insts⟩

end ProgramSlicer
