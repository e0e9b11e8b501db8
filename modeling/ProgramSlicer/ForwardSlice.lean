import ProgramSlicer.BackwardSlice

/-!
The forward slicer runs the backward slicer's masks along successors. Its marked
set is reachability by paths that make all their calls before their returns; it
is closed under uses, not under operands.
-/
namespace ProgramSlicer
open CallStrings ClosureMarking SDG

section Marking
variable {A : Analyses} {M : Module} {s : SDG}

theorem forwardMarked_of_run (run : runOnModule A M = some s) (ord : Order NodePtr)
    (criterion : List InstId) : ∃ marked,
      ForwardSlice.markVerticesOfForwardSlice ord s (criterion.map .inst) = some marked ∧
      ∀ n, n ∈ marked ↔ ∃ c ∈ criterion, ∃ w, CallsFirst w ∧ Walk (Labelled s) (.inst c) w n := by
  obtain ⟨marked, mark, mem⟩ :=
    markVerticesOfForwardSlice_spec (runOnModule_built run) ord (criterion.map .inst)
  refine ⟨marked, mark, fun n => ?_⟩
  rw [mem]
  simp [calls_first_iff]

theorem callsFirst_snoc {c a b : NodePtr} (edge : Labelled s a .neutral b)
    (path : ∃ w, CallsFirst w ∧ Walk (Labelled s) c w a) :
    ∃ w, CallsFirst w ∧ Walk (Labelled s) c w b := by
  rw [calls_first_iff] at path ⊢
  obtain ⟨m, down, up⟩ := path
  exact ⟨m, down, up.tail ⟨.neutral, by simp, edge⟩⟩

end Marking

/-- What remains of a module may have lost an operand exactly where no
    calls-first path from a criterion reaches it; what uses a remaining
    instruction remains. -/
theorem forwardSlice_operands {A : Analyses} {M : Module} {s : SDG}
    (run : runOnModule A M = some s) (ord : Order NodePtr) (criterion : List InstId) :
    ∃ marked fs,
      ForwardSlice.markVerticesOfForwardSlice ord s (criterion.map .inst) = some marked ∧
      ForwardSlice.sliceModule s marked M = some fs ∧
      (∀ I, Remains fs I → ∀ J ∈ M.insts, .inst J.id ∈ I.operands →
        (¬ Remains fs J ↔
          ¬ ∃ c ∈ criterion, ∃ w, CallsFirst w ∧ Walk (Labelled s) (.inst c) w (.inst J.id))) ∧
      ∀ J, Remains fs J → ∀ I ∈ M.insts, .inst J.id ∈ I.operands → Remains fs I := by
  obtain ⟨marked, mark, mem⟩ := forwardMarked_of_run run ord criterion
  have slice := forwardSlice_total run marked
  refine ⟨marked, _, mark, slice, fun I _ J hJ _ => ?_, fun J remains I hI used => ?_⟩
  · rw [remains_forward_iff slice, mem]
    simp [hJ]
  · obtain ⟨_, isMarked⟩ := (remains_forward_iff slice J).mp remains
    obtain ⟨c, hc, path⟩ := (mem _).mp isMarked
    have edge := labelled_of_dependence run (.operand hI used)
    exact (remains_forward_iff slice I).mpr ⟨hI, (mem _).mpr ⟨c, hc, callsFirst_snoc edge path⟩⟩

theorem passedOn_operands : ∃ s, runOnModule blockPerFunction passedOn = some s ∧
    ∃ marked fs,
      ForwardSlice.markVerticesOfForwardSlice Order.head s [.inst 4] = some marked ∧
      ForwardSlice.sliceModule s marked passedOn = some fs ∧
      (∀ I, Remains fs I → ∀ J ∈ passedOn.insts, .inst J.id ∈ I.operands →
        (¬ Remains fs J ↔
          ¬ ∃ c ∈ [4], ∃ w, CallsFirst w ∧ Walk (Labelled s) (.inst c) w (.inst J.id))) ∧
      ∀ J, Remains fs J → ∀ I ∈ passedOn.insts, .inst J.id ∈ I.operands → Remains fs I := by
  obtain ⟨s, run⟩ := passedOn_completes
  exact ⟨s, run, forwardSlice_operands run Order.head [4]⟩

/-- Slicing forward from the second call keeps it and drops the first, whose
    value it passes on. -/
theorem passedOn_dangling : passedOn.Verified ∧ blockPerFunction.Correct passedOn ∧
    ∃ fs, ForwardSlice.runOnModule Order.head blockPerFunction passedOn [1] = some fs ∧
      (∃ G ∈ fs, ∃ I ∈ G.insts, .inst 0 ∈ I.operands) ∧
      (∃ J ∈ passedOn.insts, J.id = 0) ∧ ∀ G ∈ fs, ∀ J ∈ G.insts, J.id ≠ 0 := by
  refine ⟨by decide, singleBlocks_correct rfl (by decide), [
    { id := 0, blocks := [⟨0, 0, [
      { id := 1, opcode := .call, operands := [.inst 0, .func 2] }]⟩] },
    { id := 1, blocks := [⟨1, 1, []⟩] },
    { id := 2, args := [0], blocks := [⟨2, 2, [
      { id := 4, opcode := .other, operands := [.arg 0] },
      { id := 5, opcode := .ret, operands := [.inst 4] }]⟩] }], by decide +kernel, ?_⟩
  decide

end ProgramSlicer
