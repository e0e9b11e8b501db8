import ProgramSlicer.Andersen.SolverRun

/-!
The solver without cycle detection, on a factory in which nothing has been merged.
-/
namespace ProgramSlicer.Andersen
open InclusionConstraints AndersNodeFactory

theorem fresh_represents (numNodes : Nat) (cs : List AndersConstraint) :
    Represents (constraintSystem cs) (.fresh numNodes) cs where
  addrOf _ _ c := c
  copy _ _ c := .inl c
  load _ _ c := c
  store _ _ c := c

/-- The solver stops, and its points-to graph is the least solution. -/
theorem solveConstraints_least (policy : HashTable.Policy NodeIndex) (order : HashOrder)
    (numNodes : Nat) (cs : List AndersConstraint) (valid : ValidConstraints numNodes cs) :
    ∃ fuel₀ g, (∀ fuel ≥ fuel₀,
        solveConstraints policy order false false fuel (.fresh numNodes) cs = some g) ∧
      IsLeast {pts | Solves (constraintSystem cs) pts} fun n => {o | o ∈ g.pts n} := by
  obtain ⟨fuel₀, s, run, targets, factory⟩ := solve_spec order false false .empty
    (fresh_wellFormed numNodes) rfl valid (solution_solves _)
    (fun n => by rw [fresh_target]) (fresh_represents numNodes cs) (by simp)
  refine ⟨fuel₀, s.toGraphs, ?_, ?_⟩
  · intro fuel le
    exact solveConstraints_run rfl (run fuel le)
  · have same : (fun n => {o | o ∈ s.pts n}) = solution (constraintSystem cs) := by
      funext n
      rw [← targets (by simp) n, factory rfl rfl, fresh_target]
    rw [same]
    exact solution_isLeast _

def storeThenLoad : List AndersConstraint :=
  [⟨.ADDR_OF, 0, 1⟩, ⟨.COPY, 2, 0⟩, ⟨.STORE, 2, 3⟩, ⟨.ADDR_OF, 3, 4⟩, ⟨.LOAD, 5, 0⟩]

/-- How LLVM goes through 64 buckets; a key below 64 is in the bucket that its hash value names. -/
def bucketOrder : HashOrder where
  arrange l := l.insertionSort fun a b => a * 37 % 64 ≤ b * 37 % 64
  perm l := List.perm_insertionSort _ l

theorem storeThenLoad_solved :
    ValidConstraints 6 storeThenLoad ∧
    ∃ fuel₀ g, (∀ fuel ≥ fuel₀,
        solveConstraints HashTable.Libstdcxx.policy bucketOrder false false fuel (.fresh 6)
          storeThenLoad = some g) ∧
      IsLeast {pts | Solves (constraintSystem storeThenLoad) pts} fun n => {o | o ∈ g.pts n} :=
  have valid : ValidConstraints 6 storeThenLoad := by unfold ValidConstraints; decide
  ⟨valid, solveConstraints_least HashTable.Libstdcxx.policy bucketOrder 6 storeThenLoad valid⟩

example : (solveConstraints HashTable.Libstdcxx.policy bucketOrder false false 9 (.fresh 6)
      storeThenLoad).map
    (fun g => (g.pts 5).bits) = some [4] := by decide +kernel

end ProgramSlicer.Andersen
