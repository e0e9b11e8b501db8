import Mathlib.Data.List.Sort
import ProgramSlicer.Library.InclusionConstraints
import ProgramSlicer.Library.MergeForest

/-!
Sets of node indices, the constraints, and the part of `AndersNodeFactory` that
the optimiser and the solver use: how many nodes there are and which node each
has been merged into. Indices are unbounded numbers.
-/
namespace ProgramSlicer.Andersen
open InclusionConstraints MergeForest

abbrev NodeIndex := Nat

/-- `SparseBitVector`, and `std::set`: the members in the order of iteration. -/
structure SparseBitVector where
  bits : List Nat
  ascending : bits.Pairwise (· < ·)
deriving DecidableEq

namespace SparseBitVector

instance : Membership Nat SparseBitVector := ⟨fun v i => i ∈ v.bits⟩

instance (i : Nat) (v : SparseBitVector) : Decidable (i ∈ v) :=
  inferInstanceAs (Decidable (i ∈ v.bits))

instance : EmptyCollection SparseBitVector := ⟨⟨[], List.Pairwise.nil⟩⟩

theorem mem_bits {i : Nat} {v : SparseBitVector} : i ∈ v.bits ↔ i ∈ v := Iff.rfl

@[simp] theorem not_mem_empty (i : Nat) : i ∉ (∅ : SparseBitVector) := List.not_mem_nil

theorem eq_of_mem {v w : SparseBitVector} (same : ∀ i, i ∈ v ↔ i ∈ w) : v = w := by
  obtain ⟨bits, sorted⟩ := v
  obtain ⟨bits', sorted'⟩ := w
  rw [SparseBitVector.mk.injEq]
  exact List.Pairwise.eq_of_mem_iff sorted sorted' fun i => same i

def insertAscending (i : Nat) : List Nat → List Nat
  | [] => [i]
  | j :: rest =>
    if i < j then i :: j :: rest else if i = j then j :: rest else j :: insertAscending i rest

@[simp] theorem mem_insertAscending {i j : Nat} {l : List Nat} :
    j ∈ insertAscending i l ↔ j = i ∨ j ∈ l := by
  induction l with
  | nil => simp [insertAscending]
  | cons k rest ih =>
    unfold insertAscending
    split
    · simp
    · split
      · rename_i same
        simp [same]
      · simp only [List.mem_cons, ih]
        tauto

theorem insertAscending_pairwise {i : Nat} {l : List Nat} (sorted : l.Pairwise (· < ·)) :
    (insertAscending i l).Pairwise (· < ·) := by
  induction l with
  | nil => simp [insertAscending]
  | cons k rest ih =>
    have tail := List.pairwise_cons.mp sorted
    unfold insertAscending
    split
    · rename_i less
      apply List.pairwise_cons.mpr
      refine ⟨?_, sorted⟩
      intro j hj
      rcases List.mem_cons.mp hj with same | later
      · omega
      · exact less.trans (tail.1 j later)
    · split
      · exact sorted
      · rename_i notLess other
        apply List.pairwise_cons.mpr
        refine ⟨?_, ih tail.2⟩
        intro j hj
        rcases mem_insertAscending.mp hj with same | later
        · omega
        · exact tail.1 j later

def set (i : Nat) (v : SparseBitVector) : SparseBitVector :=
  ⟨insertAscending i v.bits, insertAscending_pairwise v.ascending⟩

def reset (i : Nat) (v : SparseBitVector) : SparseBitVector :=
  ⟨v.bits.filter (· ≠ i), v.ascending.filter _⟩

def union (v w : SparseBitVector) : SparseBitVector := w.bits.foldl (fun v i => v.set i) v

def unionChanges (v w : SparseBitVector) : Bool := w.bits.any (· ∉ v)

def count (v : SparseBitVector) : Nat := v.bits.length

@[simp] theorem mem_set {i j : Nat} {v : SparseBitVector} : j ∈ v.set i ↔ j = i ∨ j ∈ v :=
  mem_insertAscending

@[simp] theorem mem_reset {i j : Nat} {v : SparseBitVector} : j ∈ v.reset i ↔ j ∈ v ∧ j ≠ i := by
  refine List.mem_filter.trans ?_
  rw [mem_bits]
  simp

@[simp] theorem mem_union {i : Nat} {v w : SparseBitVector} : i ∈ v.union w ↔ i ∈ v ∨ i ∈ w := by
  have each : ∀ (l : List Nat) (v : SparseBitVector),
      i ∈ l.foldl (fun v i => v.set i) v ↔ i ∈ v ∨ i ∈ l := by
    intro l
    induction l with
    | nil => simp
    | cons j l ih =>
      intro v
      rw [List.foldl_cons, ih, mem_set, List.mem_cons]
      tauto
  exact each w.bits v

theorem unionChanges_iff {v w : SparseBitVector} :
    unionChanges v w = true ↔ ∃ i ∈ w, i ∉ v := by
  simp [unionChanges, mem_bits]

end SparseBitVector

inductive ConstraintType where
  | ADDR_OF | COPY | LOAD | STORE
deriving DecidableEq

structure AndersConstraint where
  type : ConstraintType
  dest : NodeIndex
  src : NodeIndex
deriving DecidableEq

def ValidConstraints (N : Nat) (cs : List AndersConstraint) : Prop :=
  ∀ c ∈ cs, c.dest < N ∧ c.src < N

/-- What the constraints ask of a points-to solution. -/
def constraintSystem (cs : List AndersConstraint) : System NodeIndex where
  addrOf d s := ⟨.ADDR_OF, d, s⟩ ∈ cs
  copy d s := ⟨.COPY, d, s⟩ ∈ cs
  load d s := ⟨.LOAD, d, s⟩ ∈ cs
  store d s := ⟨.STORE, d, s⟩ ∈ cs

def targetSets (pairs : List (NodeIndex × NodeIndex)) (n : NodeIndex) : Set NodeIndex :=
  {o | (n, o) ∈ pairs}

/-- Whether the sets given by the pairs satisfy the constraint. -/
def AndersConstraint.holdsOf (pairs : List (NodeIndex × NodeIndex)) (c : AndersConstraint) :
    Bool :=
  let included (a b : NodeIndex) := pairs.all fun p => p.1 ≠ a || pairs.contains (b, p.2)
  match c.type with
  | .ADDR_OF => pairs.contains (c.dest, c.src)
  | .COPY => included c.src c.dest
  | .LOAD => pairs.all fun p => p.1 ≠ c.src || included p.2 c.dest
  | .STORE => pairs.all fun p => p.1 ≠ c.dest || included c.src p.2

theorem targetSets_subset {pairs : List (NodeIndex × NodeIndex)} {a b : NodeIndex}
    (checked : (pairs.all fun p => p.1 ≠ a || pairs.contains (b, p.2)) = true) :
    targetSets pairs a ⊆ targetSets pairs b := by
  intro o mem
  have here := List.all_eq_true.mp checked (a, o) mem
  have there : (b, o) ∈ pairs := by simpa using here
  exact there

theorem solution_le_targetSets {cs : List AndersConstraint} {pairs : List (NodeIndex × NodeIndex)}
    (checked : (cs.all (·.holdsOf pairs)) = true) :
    solution (constraintSystem cs) ≤ targetSets pairs := by
  have each := List.all_eq_true.mp checked
  apply solution_le
  constructor
  · intro d s mem
    have here : (d, s) ∈ pairs := List.contains_iff_mem.mp (each _ mem)
    exact here
  · intro d s mem
    exact targetSets_subset (each _ mem)
  · intro d s mem o pointee
    have here := List.all_eq_true.mp (each _ mem) (s, o) pointee
    exact targetSets_subset (by simpa using here)
  · intro d s mem o pointee
    have here := List.all_eq_true.mp (each _ mem) (d, o) pointee
    exact targetSets_subset (by simpa using here)

structure AndersNodeFactory where
  numNodes : Nat
  mergeTarget : NodeIndex → NodeIndex

namespace AndersNodeFactory

def UniversalPtrIndex : NodeIndex := 0
def UniversalObjIndex : NodeIndex := 1
def NullPtrIndex : NodeIndex := 2
def NullObjectIndex : NodeIndex := 3

def InvalidIndex : NodeIndex := UInt32.size - 1

def fresh (numNodes : Nat) : AndersNodeFactory := ⟨numNodes, fun n => n⟩

/-- The constant version. No chain of merges is longer than there are nodes. -/
def getMergeTarget (F : AndersNodeFactory) (n : NodeIndex) : NodeIndex :=
  follow F.mergeTarget F.numNodes n

/-- `assert(n0 < nodes.size() && n1 < nodes.size())`, then merge `n1` into `n0`. -/
def mergeNode (F : AndersNodeFactory) (n0 n1 : NodeIndex) : Option AndersNodeFactory :=
  if n0 < F.numNodes ∧ n1 < F.numNodes then
    some { F with mergeTarget := merge F.mergeTarget n0 n1 }
  else none

/-- The nodes that the first loop of the other version goes through. -/
def mergePath (F : AndersNodeFactory) : Nat → NodeIndex → List NodeIndex
  | 0, _ => []
  | k + 1, n => if F.mergeTarget n = n then [] else n :: mergePath F k (F.mergeTarget n)

/-- What the version that is not constant does to the factory: path compression. -/
def compress (F : AndersNodeFactory) (n : NodeIndex) : AndersNodeFactory :=
  { F with mergeTarget := fun m =>
      if m ∈ mergePath F F.numNodes n then F.getMergeTarget n else F.mergeTarget m }

/-- Merges join valid nodes and never run in a circle. -/
structure WellFormed (F : AndersNodeFactory) : Prop where
  inside : ∀ n < F.numNodes, F.mergeTarget n < F.numNodes
  outside : ∀ n, F.numNodes ≤ n → F.mergeTarget n = n
  acyclic : Acyclic F.mergeTarget

variable {F F' : AndersNodeFactory}

theorem fresh_wellFormed (numNodes : Nat) : (fresh numNodes).WellFormed :=
  ⟨fun _ h => h, fun _ _ => rfl, fun _ => 0, fun _ moved => absurd rfl moved⟩

theorem leads_target (wf : F.WellFormed) (n : NodeIndex) :
    Leads F.mergeTarget n (F.getMergeTarget n) := by
  apply follow_leads wf.acyclic (Finset.range F.numNodes)
  · intro m out
    exact wf.outside m (by simpa using out)
  · simp

theorem target_idem (wf : F.WellFormed) (n : NodeIndex) :
    F.getMergeTarget (F.getMergeTarget n) = F.getMergeTarget n :=
  leads_unique (leads_target wf _) ⟨.refl, (leads_target wf n).2⟩

theorem target_eq (wf : F.WellFormed) {n r : NodeIndex} (leads : Leads F.mergeTarget n r) :
    F.getMergeTarget n = r :=
  leads_unique (leads_target wf n) leads

theorem target_inside (wf : F.WellFormed) {n : NodeIndex} (valid : n < F.numNodes) :
    F.getMergeTarget n < F.numNodes := by
  have stays : ∀ r, Relation.ReflTransGen (fun a b => F.mergeTarget a = b) n r →
      r < F.numNodes := by
    intro r path
    induction path with
    | refl => exact valid
    | tail _ step ih => exact step ▸ wf.inside _ ih
  exact stays _ (leads_target wf n).1

@[simp] theorem fresh_target (numNodes n : Nat) : (fresh numNodes).getMergeTarget n = n :=
  target_eq (fresh_wellFormed numNodes) ⟨.refl, rfl⟩

theorem mergeNode_spec (wf : F.WellFormed) {dst src : NodeIndex} (hd : dst < F.numNodes)
    (hs : src < F.numNodes) (rootD : F.getMergeTarget dst = dst)
    (rootS : F.getMergeTarget src = src) (other : dst ≠ src) :
    ∃ F', F.mergeNode dst src = some F' ∧ F'.WellFormed ∧ F'.numNodes = F.numNodes ∧
      ∀ n, F'.getMergeTarget n = if F.getMergeTarget n = src then dst else F.getMergeTarget n := by
  have fixedD : F.mergeTarget dst = dst := by
    have := (leads_target wf dst).2
    rwa [rootD] at this
  have fixedS : F.mergeTarget src = src := by
    have := (leads_target wf src).2
    rwa [rootS] at this
  let F' : AndersNodeFactory := { F with mergeTarget := merge F.mergeTarget dst src }
  have wf' : F'.WellFormed := by
    refine ⟨?_, ?_, merge_acyclic wf.acyclic fixedD fixedS other⟩
    · intro n valid
      show merge F.mergeTarget dst src n < F.numNodes
      unfold merge
      split
      · exact hd
      · exact wf.inside n valid
    · intro n out
      show merge F.mergeTarget dst src n = n
      unfold merge
      rw [if_neg fun same : n = src => absurd hs (Nat.not_lt.mpr (same ▸ out))]
      exact wf.outside n out
  refine ⟨F', if_pos ⟨hd, hs⟩, wf', rfl, ?_⟩
  exact fun n => target_eq wf' (merge_leads (leads_target wf n) fixedD fixedS other)

theorem mergeNodes_spec (target : NodeIndex → NodeIndex)
    {f : AndersNodeFactory → NodeIndex → Option AndersNodeFactory} {l : List NodeIndex}
    (step : ∀ F, ∀ k ∈ l, f F k = F.mergeNode (target k) k) (nodup : l.Nodup)
    (roots : ∀ k ∈ l, k < F.numNodes ∧ F.getMergeTarget k = k)
    (targets : ∀ k ∈ l, target k < F.numNodes ∧ F.getMergeTarget (target k) = target k ∧
      target k ∉ l) (wf : F.WellFormed) :
    ∃ F', l.foldlM f F = some F' ∧ F'.WellFormed ∧
      F'.numNodes = F.numNodes ∧ ∀ n, F'.getMergeTarget n =
        if F.getMergeTarget n ∈ l then target (F.getMergeTarget n) else F.getMergeTarget n := by
  induction l generalizing F with
  | nil => exact ⟨F, rfl, wf, rfl, by simp⟩
  | cons k rest ih =>
    obtain ⟨new, nodup⟩ := List.nodup_cons.mp nodup
    obtain ⟨hk, rootK⟩ := roots k (by simp)
    obtain ⟨ht, rootT, kept⟩ := targets k (by simp)
    have other : target k ≠ k := fun same => kept (by simp [same])
    obtain ⟨F₁, merged, wf₁, size₁, target₁⟩ := mergeNode_spec wf ht hk rootT rootK other
    have still : ∀ m, F.getMergeTarget m = m → m ≠ k → F₁.getMergeTarget m = m := by
      intro m root apart
      rw [target₁, root, if_neg apart]
    obtain ⟨F', run, wf', size', target'⟩ := ih (F := F₁)
      (fun F m hm => step F m (by simp [hm])) nodup
      (fun m hm => by
        obtain ⟨inside, root⟩ := roots m (by simp [hm])
        exact ⟨size₁ ▸ inside, still m root fun same => new (same ▸ hm)⟩)
      (fun m hm => by
        obtain ⟨inside, root, out⟩ := targets m (by simp [hm])
        rw [List.mem_cons, not_or] at out
        exact ⟨size₁ ▸ inside, still _ root out.1, out.2⟩) wf₁
    refine ⟨F', ?_, wf', size'.trans size₁, ?_⟩
    · rw [List.foldlM_cons, step F k (by simp), merged]
      exact run
    · intro n
      rw [target', target₁]
      have out := (List.mem_cons.not.mp kept)
      by_cases here : F.getMergeTarget n = k
      · have last : target k ∉ rest := fun h => kept (List.mem_cons_of_mem k h)
        simp [here, last]
      · simp [here]

theorem mergePath_leads (wf : F.WellFormed) {k : Nat} {n m : NodeIndex}
    (mem : m ∈ mergePath F k n) : F.getMergeTarget m = F.getMergeTarget n := by
  induction k generalizing n with
  | zero => simp [mergePath] at mem
  | succ k ih =>
    unfold mergePath at mem
    split at mem
    · simp at mem
    · rcases List.mem_cons.mp mem with same | later
      · rw [same]
      · rw [ih later]
        exact (target_eq wf (leads_step (leads_target wf _))).symm

theorem compress_target (wf : F.WellFormed) (n m : NodeIndex) :
    (F.compress n).WellFormed ∧ (F.compress n).getMergeTarget m = F.getMergeTarget m := by
  have short : ∀ x, (F.compress n).mergeTarget x = F.mergeTarget x ∨
      Leads F.mergeTarget x ((F.compress n).mergeTarget x) := by
    intro x
    unfold compress
    dsimp only
    split
    · rename_i mem
      rw [← mergePath_leads wf mem]
      exact .inr (leads_target wf x)
    · exact .inl rfl
  have wf' : (F.compress n).WellFormed := by
    refine ⟨?_, ?_, shortcut_acyclic wf.acyclic short⟩
    · intro x valid
      rcases short x with same | jump
      · rw [same]
        exact wf.inside x valid
      · rw [← target_eq wf jump]
        exact target_inside wf valid
    · intro x out
      have fixed := wf.outside x out
      rcases short x with same | jump
      · rw [same, fixed]
      · exact leads_unique jump ⟨.refl, fixed⟩
  exact ⟨wf', target_eq wf' (shortcut_leads wf.acyclic short (leads_target wf m))⟩

end AndersNodeFactory
end ProgramSlicer.Andersen
