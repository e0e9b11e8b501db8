import Mathlib.Data.Nat.Find
import ProgramSlicer.Library.ControlDependence

/-!
Where a walk goes next that only some vertices are kept of. If the decisions on
which a kept vertex depends are kept as well, every other decision is without
consequence: whichever way it goes, the next kept vertex is the same.
-/
namespace ControlDependence
open Relation
variable {B : Type} {Edge : B → B → Prop} {keep decided : B → Prop}

/-- A kept vertex depends on vertices that are kept with their decision. -/
structure DecisionsKept (Edge : B → B → Prop) (keep decided : B → Prop) : Prop where
  kept : ∀ b, decided b → keep b
  depends : ∀ n b, keep n → DependsOn Edge n b → decided b

/-- `m` is the first kept vertex on some path from here. -/
inductive NextKept (Edge : B → B → Prop) (keep : B → Prop) : B → B → Prop where
  | here {b : B} (kept : keep b) : NextKept Edge keep b b
  | step {b c m : B} (skipped : ¬ keep b) (edge : Edge b c) (rest : NextKept Edge keep c m) :
      NextKept Edge keep b m

theorem nextKept_kept {b m : B} (next : NextKept Edge keep b m) : keep m := by
  induction next with
  | here kept => exact kept
  | step _ _ _ ih => exact ih

theorem nextKept_here {b m : B} (kept : keep b) : NextKept Edge keep b m ↔ m = b := by
  constructor
  · intro next
    cases next with
    | here => rfl
    | step skipped => exact absurd kept skipped
  · intro same
    rw [same]
    exact .here kept

theorem postdominates_nextKept {b m d : B} (next : NextKept Edge keep b m) (kept : keep d)
    (dom : PostDominates Edge d b) : PostDominates Edge d m := by
  induction next with
  | here => exact dom
  | step skipped edge _ ih =>
    have other : ∀ {x}, ¬ keep x → x ≠ d := fun skipped same => skipped (same ▸ kept)
    exact ih (postdominates_next dom (other skipped) edge)

theorem exists_nextKept {b d : B} (kept : keep d) (path : ReflTransGen Edge b d) :
    ∃ m, NextKept Edge keep b m := by
  induction path using ReflTransGen.head_induction_on with
  | refl => exact ⟨d, .here kept⟩
  | @head x y edge _ ih =>
    by_cases here : keep x
    · exact ⟨x, .here here⟩
    · obtain ⟨m, next⟩ := ih
      exact ⟨m, .step here edge next⟩

section Closed
variable (closed : DecisionsKept Edge keep decided)
include closed

/-- Every run from here passes the first kept vertex of some path: the vertex would
    depend on one that is skipped otherwise. -/
theorem nextKept_postdominates {b m : B} (next : NextKept Edge keep b m) :
    PostDominates Edge m b := by
  induction next with
  | here => exact postdominates_refl _
  | @step b c m skipped edge rest ih =>
    by_contra miss
    have dep : DependsOn Edge m b := ⟨c, edge, ih, fun strict => miss strict.1⟩
    exact skipped (closed.kept b (closed.depends m b (nextKept_kept rest) dep))

variable (exits : ∀ b, ReachesExit Edge b)
include exits

theorem nextKept_either {b c c' m : B} (free : ¬ decided b) (edge : Edge b c)
    (edge' : Edge b c') (next : NextKept Edge keep c m) : NextKept Edge keep c' m := by
  have kept := nextKept_kept next
  -- m strictly post-dominates b, or it would depend on b
  have strict : StrictlyPostDominates Edge m b := by
    by_contra notStrict
    exact free (closed.depends m b kept
      ⟨c, edge, nextKept_postdominates closed next, notStrict⟩)
  have throughC' : ∀ {d e}, Edge b e → StrictlyPostDominates Edge d b → PostDominates Edge d e :=
    fun edge strict => postdominates_next strict.1 strict.2.symm edge
  obtain ⟨m', next'⟩ := exists_nextKept kept
    (reaches_of_postdominates (exits c') (throughC' edge' strict))
  have kept' := nextKept_kept next'
  have strict' : StrictlyPostDominates Edge m' b := by
    by_contra notStrict
    exact free (closed.depends m' b kept'
      ⟨c', edge', nextKept_postdominates closed next', notStrict⟩)
  have same : m = m' := by
    apply postdominates_antisymm (exits m')
    · exact postdominates_nextKept next' kept (throughC' edge' strict)
    · exact postdominates_nextKept next kept' (throughC' edge strict')
  exact same ▸ next'

theorem nextKept_skip {b c m : B} (skipped : ¬ keep b) (edge : Edge b c) :
    NextKept Edge keep b m ↔ NextKept Edge keep c m := by
  constructor
  · intro next
    cases next with
    | here kept => exact absurd kept skipped
    | step _ edge' rest =>
      exact nextKept_either closed exits (fun d => skipped (closed.kept b d)) edge' edge rest
  · exact .step skipped edge

end Closed

def ExitIn (Edge : B → B → Prop) : Nat → B → Prop
  | 0, b => Exit Edge b
  | n + 1, b => ∃ c, Edge b c ∧ ExitIn Edge n c

theorem exists_rank (exits : ∀ b, ReachesExit Edge b) :
    ∃ rank : B → Nat, ∀ b, Exit Edge b ∨ ∃ c, Edge b c ∧ rank c < rank b := by
  classical
  have away : ∀ b, ∃ n, ExitIn Edge n b := by
    intro b
    induction exits b with
    | exit stop => exact ⟨0, stop⟩
    | step edge _ ih =>
      obtain ⟨n, near⟩ := ih
      exact ⟨n + 1, _, edge, near⟩
  refine ⟨fun b => Nat.find (away b), fun b => ?_⟩
  have near := Nat.find_spec (away b)
  cases distance : Nat.find (away b) with
  | zero =>
    rw [distance] at near
    exact .inl near
  | succ n =>
    rw [distance] at near
    obtain ⟨c, edge, rest⟩ := near
    have nearer := Nat.find_min' (away c) rest
    exact .inr ⟨c, edge, by simp only [distance]; omega⟩

end ControlDependence
