import ProgramSlicer.Andersen.NodeFactory

/-!
Merging over a whole history: the two versions of `getMergeTarget` as the loops
they are, interleaved with `mergeNode` in any order. The pointers stay a forest,
both loops end at its roots, and the classes are those that the merges generate.
-/
namespace ProgramSlicer.Andersen
open MergeForest Relation

namespace AndersNodeFactory

def followTargets (F : AndersNodeFactory) : Nat → NodeIndex → Option NodeIndex
  | 0, _ => none
  | fuel + 1, ret =>
    if ret < F.numNodes then
      if ret = F.mergeTarget ret then some ret else followTargets F fuel (F.mergeTarget ret)
    else none

def getMergeTargetConst (F : AndersNodeFactory) (fuel : Nat) (n : NodeIndex) : Option NodeIndex :=
  if n < F.numNodes then F.followTargets fuel (F.mergeTarget n) else none

def followPath (F : AndersNodeFactory) :
    Nat → NodeIndex → List NodeIndex → Option (NodeIndex × List NodeIndex)
  | 0, _, _ => none
  | fuel + 1, ret, path =>
    if ret < F.numNodes then
      if ret = F.mergeTarget ret then some (ret, path)
      else followPath F fuel (F.mergeTarget ret) (path ++ [ret])
    else none

def setMergeTarget (ret : NodeIndex) (F : AndersNodeFactory) (idx : NodeIndex) :
    AndersNodeFactory :=
  { F with mergeTarget := fun m => if m = idx then ret else F.mergeTarget m }

/-- `getMergeTarget(n)` on a factory that may change, between its two assertions. -/
def getMergeTargetCompressing (F : AndersNodeFactory) (fuel : Nat) (n : NodeIndex) :
    Option (NodeIndex × AndersNodeFactory) :=
  if n < F.numNodes then do
    let ret := F.mergeTarget n
    let (ret, F) ←
      if ret ≠ n then do
        let (ret, path) ← F.followPath fuel ret [n]
        pure (ret, path.foldl (setMergeTarget ret) F)
      else pure (ret, F)
    if ret < F.numNodes then pure (ret, F) else none
  else none

/-- `N` nodes after merges of nodes that were then their own targets, the last one
first, among lookups that compressed paths. A lookup by the constant version leaves
the factory as it is and needs no step. -/
inductive History (N : Nat) : List (NodeIndex × NodeIndex) → AndersNodeFactory → Prop
  | created : History N [] (fresh N)
  | merged {merges : List (NodeIndex × NodeIndex)} {F F' : AndersNodeFactory}
      {fuel : Nat} {n0 n1 : NodeIndex} : History N merges F →
      F.getMergeTargetConst fuel n0 = some n0 → F.getMergeTargetConst fuel n1 = some n1 →
      F.mergeNode n0 n1 = some F' → History N ((n0, n1) :: merges) F'
  | lookedUp {merges : List (NodeIndex × NodeIndex)} {F F' : AndersNodeFactory}
      {fuel : Nat} {n r : NodeIndex} : History N merges F →
      F.getMergeTargetCompressing fuel n = some (r, F') → History N merges F'

section Loops
variable {F : AndersNodeFactory}

theorem followTargets_root {fuel : Nat} {ret r : NodeIndex}
    (run : F.followTargets fuel ret = some r) : r < F.numNodes ∧ F.mergeTarget r = r := by
  induction fuel generalizing ret with
  | zero => simp [followTargets] at run
  | succ fuel ih =>
    unfold followTargets at run
    split at run
    · rename_i inside
      split at run
      · rename_i root
        obtain rfl := Option.some.inj run
        exact ⟨inside, root.symm⟩
      · exact ih run
    · simp at run

theorem const_root {fuel : Nat} {n r : NodeIndex} (run : F.getMergeTargetConst fuel n = some r) :
    r < F.numNodes ∧ F.mergeTarget r = r := by
  unfold getMergeTargetConst at run
  split at run
  · exact followTargets_root run
  · simp at run

theorem followPath_eq {fuel : Nat} {ret : NodeIndex} {path : List NodeIndex} :
    F.followPath (fuel + 1) ret path = (F.followTargets (fuel + 1) ret).map
      fun r => (r, path ++ F.mergePath fuel ret) := by
  induction fuel generalizing ret path with
  | zero =>
    by_cases inside : ret < F.numNodes
    · by_cases root : ret = F.mergeTarget ret
      · simp [followPath, followTargets, mergePath, inside, ← root]
      · simp [followPath, followTargets, inside, root]
    · simp [followPath, followTargets, inside]
  | succ fuel ih =>
    unfold followPath followTargets
    by_cases inside : ret < F.numNodes
    · by_cases root : ret = F.mergeTarget ret
      · simp [mergePath, inside, ← root]
      · have moved : F.mergeTarget ret ≠ ret := fun same => root same.symm
        rw [if_pos inside, if_pos inside, if_neg root, if_neg root, ih]
        simp [mergePath, moved]
    · simp [inside]

theorem followPath_more {fuel more : Nat} (le : fuel ≤ more) {ret : NodeIndex}
    {path : List NodeIndex} {answer : NodeIndex × List NodeIndex}
    (run : F.followPath fuel ret path = some answer) :
    F.followPath more ret path = some answer := by
  induction fuel generalizing ret path more with
  | zero => simp [followPath] at run
  | succ fuel ih =>
    obtain ⟨more, rfl⟩ : ∃ j, more = j + 1 := ⟨more - 1, by omega⟩
    unfold followPath at run ⊢
    split at run
    · rename_i inside
      rw [if_pos inside]
      split at run
      · rename_i root
        rw [if_pos root]
        exact run
      · rename_i moved
        rw [if_neg moved]
        exact ih (by omega) run
    · simp at run

theorem getMergeTargetCompressing_more {fuel more : Nat} (le : fuel ≤ more) {n : NodeIndex}
    {answer : NodeIndex × AndersNodeFactory}
    (run : F.getMergeTargetCompressing fuel n = some answer) :
    F.getMergeTargetCompressing more n = some answer := by
  unfold getMergeTargetCompressing at run ⊢
  by_cases root : F.mergeTarget n = n
  · simpa [root] using run
  · cases stop : F.followPath fuel (F.mergeTarget n) [n] with
    | none => simp [root, stop] at run
    | some found =>
      simpa [root, stop, followPath_more le stop] using run

theorem setMergeTarget_foldl (ret : NodeIndex) (path : List NodeIndex) :
    path.foldl (setMergeTarget ret) F =
      { F with mergeTarget := fun m => if m ∈ path then ret else F.mergeTarget m } := by
  induction path generalizing F with
  | nil => simp
  | cons idx path ih =>
    rw [List.foldl_cons, ih]
    unfold setMergeTarget
    congr 1
    funext m
    by_cases later : m ∈ path <;> by_cases here : m = idx <;> simp [later, here]

theorem mergePath_enough {k more : Nat} {n : NodeIndex} (le : k ≤ more)
    (root : F.mergeTarget (follow F.mergeTarget k n) = follow F.mergeTarget k n) :
    F.mergePath more n = F.mergePath k n := by
  induction k generalizing n more with
  | zero =>
    have root : F.mergeTarget n = n := root
    cases more with
    | zero => rfl
    | succ more => simp [mergePath, root]
  | succ k ih =>
    obtain ⟨more, rfl⟩ : ∃ j, more = j + 1 := ⟨more - 1, by omega⟩
    unfold follow at root
    unfold mergePath
    by_cases moved : F.mergeTarget n = n
    · simp [moved]
    · rw [if_neg moved] at root
      rw [if_neg moved, if_neg moved, ih (by omega) root]

end Loops

section WellFormed
variable {F F' : AndersNodeFactory} (wf : F.WellFormed)
include wf

theorem followTargets_eq {k : Nat} {ret : NodeIndex} (inside : ret < F.numNodes)
    (root : F.mergeTarget (follow F.mergeTarget k ret) = follow F.mergeTarget k ret) :
    F.followTargets (k + 1) ret = some (follow F.mergeTarget k ret) := by
  induction k generalizing ret with
  | zero =>
    have root : F.mergeTarget ret = ret := root
    simp [followTargets, follow, inside, root]
  | succ k ih =>
    unfold followTargets follow
    unfold follow at root
    by_cases moved : F.mergeTarget ret = ret
    · simp [inside, moved]
    · rw [if_neg moved] at root
      rw [if_pos inside, if_neg (Ne.symm moved), if_neg moved]
      exact ih (wf.inside ret inside) root

theorem follow_target {k : Nat} (enough : F.numNodes ≤ k) (n : NodeIndex) :
    follow F.mergeTarget k n = F.getMergeTarget n := by
  refine (target_eq wf (follow_leads wf.acyclic (Finset.range F.numNodes) ?_ ?_ n)).symm
  · intro m out
    exact wf.outside m (by simpa using out)
  · simpa using enough

theorem followTargets_target {fuel : Nat} (enough : F.numNodes < fuel) {ret : NodeIndex}
    (inside : ret < F.numNodes) : F.followTargets fuel ret = some (F.getMergeTarget ret) := by
  obtain ⟨k, rfl⟩ : ∃ k, fuel = k + 1 := ⟨fuel - 1, by omega⟩
  have reached := follow_target wf (Nat.le_of_lt_succ enough) ret
  rw [followTargets_eq wf inside, reached]
  rw [reached]
  exact (leads_target wf ret).2

theorem target_step (n : NodeIndex) : F.getMergeTarget (F.mergeTarget n) = F.getMergeTarget n :=
  (target_eq wf (leads_step (leads_target wf _))).symm

theorem target_of_root {n : NodeIndex} (root : F.mergeTarget n = n) : F.getMergeTarget n = n :=
  target_eq wf ⟨.refl, root⟩

theorem getMergeTargetConst_eq {fuel : Nat} (enough : F.numNodes < fuel) {n : NodeIndex}
    (inside : n < F.numNodes) : F.getMergeTargetConst fuel n = some (F.getMergeTarget n) := by
  rw [getMergeTargetConst, if_pos inside, followTargets_target wf enough (wf.inside n inside),
    target_step wf]

theorem mergePath_loop {k : Nat} (enough : F.numNodes ≤ k) {n : NodeIndex}
    (moved : F.mergeTarget n ≠ n) :
    n :: F.mergePath k (F.mergeTarget n) = F.mergePath F.numNodes n := by
  have whole : F.mergePath (k + 1) n = n :: F.mergePath k (F.mergeTarget n) := by
    rw [mergePath, if_neg moved]
  rw [← whole]
  apply mergePath_enough (by omega)
  rw [follow_target wf (Nat.le_refl _)]
  exact (leads_target wf n).2

/-- The other version ends as well, with the same target and the path compressed. -/
theorem getMergeTargetCompressing_eq {fuel : Nat} (enough : F.numNodes < fuel) {n : NodeIndex}
    (inside : n < F.numNodes) :
    F.getMergeTargetCompressing fuel n = some (F.getMergeTarget n, F.compress n) := by
  have size : (F.compress n).numNodes = F.numNodes := rfl
  unfold getMergeTargetCompressing
  rw [if_pos inside]
  by_cases root : F.mergeTarget n = n
  · have still : F.compress n = F := by
      have empty : F.mergePath F.numNodes n = [] := by
        obtain ⟨k, size⟩ := Nat.exists_eq_add_one_of_ne_zero (Nat.ne_zero_of_lt inside)
        rw [size, mergePath, if_pos root]
      simp [compress, empty]
    simp [root, inside, still, target_of_root wf root]
  · obtain ⟨k, rfl⟩ : ∃ k, fuel = k + 1 := ⟨fuel - 1, by omega⟩
    have path : F.followPath (k + 1) (F.mergeTarget n) [n] =
        some (F.getMergeTarget n, F.mergePath F.numNodes n) := by
      rw [followPath_eq, followTargets_target wf enough (wf.inside n inside), target_step wf,
        Option.map_some, List.singleton_append, mergePath_loop wf (by omega) root]
    have after : (F.mergePath F.numNodes n).foldl (setMergeTarget (F.getMergeTarget n)) F =
        F.compress n := setMergeTarget_foldl _ _
    simp [root, path, after, size, target_inside wf inside]

theorem mergeNode_roots {n0 n1 : NodeIndex} (root0 : F.mergeTarget n0 = n0)
    (root1 : F.mergeTarget n1 = n1) (merged : F.mergeNode n0 n1 = some F') :
    F'.WellFormed ∧ F'.numNodes = F.numNodes ∧ ∀ n, F'.getMergeTarget n =
      if F.getMergeTarget n = n1 then n0 else F.getMergeTarget n := by
  by_cases same : n0 = n1
  · subst same
    have still : F' = F := by
      unfold mergeNode at merged
      split at merged
      · obtain rfl := Option.some.inj merged
        have kept : merge F.mergeTarget n0 n0 = F.mergeTarget := by
          funext m
          by_cases here : m = n0 <;> simp [merge, here, root0]
        rw [kept]
      · simp at merged
    rw [still]
    refine ⟨wf, rfl, ?_⟩
    intro n
    split
    · assumption
    · rfl
  · have inside : n0 < F.numNodes ∧ n1 < F.numNodes := by
      by_contra out
      simp [mergeNode, out] at merged
    obtain ⟨G, run, wf', size, targets⟩ := mergeNode_spec wf inside.1 inside.2
      (target_of_root wf root0) (target_of_root wf root1) same
    obtain rfl := Option.some.inj (run.symm.trans merged)
    exact ⟨wf', size, targets⟩

end WellFormed

/-- What a history leaves: a forest whose roots tell the generated classes apart. -/
structure Merged (N : Nat) (merges : List (NodeIndex × NodeIndex)) (F : AndersNodeFactory) :
    Prop where
  wellFormed : F.WellFormed
  size : F.numNodes = N
  classes : ∀ a b, F.getMergeTarget a = F.getMergeTarget b ↔
    EqvGen (fun x y => (x, y) ∈ merges) a b

theorem created_merged (N : Nat) : Merged N [] (fresh N) := by
  refine ⟨fresh_wellFormed N, rfl, ?_⟩
  intro a b
  rw [fresh_target, fresh_target]
  constructor
  · intro same
    exact same ▸ .refl a
  · intro related
    induction related with
    | rel x y step => simp at step
    | refl x => rfl
    | symm x y _ ih => exact ih.symm
    | trans x y z _ _ first second => exact first.trans second

variable {N : Nat} {merges : List (NodeIndex × NodeIndex)} {F F' : AndersNodeFactory}

theorem Merged.merge (before : Merged N merges F) {fuel : Nat} {n0 n1 : NodeIndex}
    (root0 : F.getMergeTargetConst fuel n0 = some n0)
    (root1 : F.getMergeTargetConst fuel n1 = some n1) (merged : F.mergeNode n0 n1 = some F') :
    Merged N ((n0, n1) :: merges) F' := by
  obtain ⟨-, fixed0⟩ := const_root root0
  obtain ⟨-, fixed1⟩ := const_root root1
  obtain ⟨wf', size, targets⟩ := mergeNode_roots before.wellFormed fixed0 fixed1 merged
  refine ⟨wf', size.trans before.size, ?_⟩
  intro a b
  rw [targets, targets, merge_classes before.classes (target_idem before.wellFormed)
    (target_of_root before.wellFormed fixed0) (target_of_root before.wellFormed fixed1)]
  simp only [List.mem_cons, Prod.mk.injEq]

theorem Merged.lookup (before : Merged N merges F) {fuel : Nat} {n r : NodeIndex}
    (run : F.getMergeTargetCompressing fuel n = some (r, F')) : Merged N merges F' := by
  have wf := before.wellFormed
  have inside : n < F.numNodes := by
    by_contra out
    simp [getMergeTargetCompressing, out] at run
  have ended := getMergeTargetCompressing_more (Nat.le_max_left fuel (F.numNodes + 1)) run
  rw [getMergeTargetCompressing_eq wf (by omega) inside, Option.some_inj, Prod.mk.injEq] at ended
  obtain ⟨-, rfl⟩ := ended
  refine ⟨(compress_target wf n n).1, before.size, ?_⟩
  intro a b
  rw [(compress_target wf n a).2, (compress_target wf n b).2]
  exact before.classes a b

theorem history_merged (history : History N merges F) : Merged N merges F := by
  induction history with
  | created => exact created_merged N
  | merged _ root0 root1 run ih => exact ih.merge root0 root1 run
  | lookedUp _ run ih => exact ih.lookup run

/-- Merging is a union-find: after every history, with more steps than there are nodes,
both loops end at the same node, their answers are their own targets, compression
changes none of them, and they tell apart what the merges do not relate. -/
theorem getMergeTarget_unionFind (history : History N merges F) {fuel : Nat} (enough : N < fuel) :
    (∀ n < N, ∃ r F', F.getMergeTargetConst fuel n = some r ∧
      F.getMergeTargetCompressing fuel n = some (r, F') ∧
      F.getMergeTargetConst fuel r = some r ∧
      ∀ m < N, F'.getMergeTargetConst fuel m = F.getMergeTargetConst fuel m) ∧
    ∀ a < N, ∀ b < N, F.getMergeTargetConst fuel a = F.getMergeTargetConst fuel b ↔
      EqvGen (fun x y => (x, y) ∈ merges) a b := by
  obtain ⟨wf, size, classes⟩ := history_merged history
  subst size
  have found : ∀ n < F.numNodes, F.getMergeTargetConst fuel n = some (F.getMergeTarget n) :=
    fun n inside => getMergeTargetConst_eq wf enough inside
  constructor
  · intro n inside
    refine ⟨F.getMergeTarget n, F.compress n, found n inside,
      getMergeTargetCompressing_eq wf enough inside, ?_, ?_⟩
    · rw [found _ (target_inside wf inside), target_idem wf]
    · intro m valid
      obtain ⟨wf', kept⟩ := compress_target wf n m
      rw [getMergeTargetConst_eq wf' enough valid, kept, found m valid]
  · intro a insideA b insideB
    rw [found a insideA, found b insideB, Option.some_inj]
    exact classes a b

/-- The merges of `NodeMergeTest`, one of its lookups before the last. -/
theorem nodeMergeTest : ∃ F, History 5 [(2, 4), (4, 0), (2, 3), (0, 1)] F ∧
    F.getMergeTargetConst 6 1 = F.getMergeTargetConst 6 3 := by
  have merged : ∃ F, History 5 [(2, 4), (4, 0), (2, 3), (0, 1)] F :=
    ⟨_, @History.merged _ _ _ _ 6 2 4
      (@History.lookedUp _ _ _ _ 6 1 4
        (@History.merged _ _ _ _ 6 4 0
          (@History.merged _ _ _ _ 6 2 3
            (@History.merged _ _ _ _ 6 0 1 .created rfl rfl rfl) rfl rfl rfl) rfl rfl rfl) rfl)
        rfl rfl rfl⟩
  obtain ⟨F, history⟩ := merged
  have same := ((getMergeTarget_unionFind history (by decide : 5 < 6)).2 1 (by decide) 3
    (by decide)).mpr (.trans _ 0 _ (.symm _ _ (.rel _ _ (by decide)))
      (.trans _ 4 _ (.symm _ _ (.rel _ _ (by decide)))
        (.trans _ 2 _ (.symm _ _ (.rel _ _ (by decide))) (.rel _ _ (by decide)))))
  exact ⟨F, history, same⟩

end AndersNodeFactory
end ProgramSlicer.Andersen
