import ProgramSlicer.Andersen.AliasQueries
import ProgramSlicer.Andersen.CollectedFlows
import ProgramSlicer.Andersen.CollectionSound
import ProgramSlicer.Andersen.CycleOptimisation
import ProgramSlicer.Andersen.OfflineSubstitution
import ProgramSlicer.Andersen.UnknownValues

/-!
`Andersen::runOnModule`, from the module to the points-to graph that its clients read.
Its three phases meet in what a node stands for: the constraints are the flows of the
module, the optimiser loses nothing of their solution, and the solver reaches it.
-/
namespace ProgramSlicer.Andersen
open FoldRules InclusionConstraints AndersNodeFactory ConstraintOptimizer Collection

/-- The options of the optimiser and the solver, which are all off by default, and how their
    hash tables are laid out. -/
structure Settings where
  enableHVN : Bool
  enableHU : Bool
  enableHCD : Bool
  enableLCD : Bool
  graphPolicy : HashTable.Policy NodeIndex
  mapOrder : HashOrder
  cycleOrder : HashOrder

/-- The pass when it is done. -/
structure Finished where
  maps : NodeMaps
  nodeFactory : AndersNodeFactory
  ptsGraph : NodeIndex → Option AndersPtsSet

def runOnModule (S : Settings) (names : FuncId → String) (fuel : Nat) (M : PtrModule) :
    Option Finished := do
  let A ← collectConstraints (addConstraintForExternalLibrary names M) M
  let (F, constraints) ← optimizeConstraints S.graphPolicy S.mapOrder S.enableHVN S.enableHU
    (.fresh A.nodeFactory.numNodes) A.constraints
  let g ← solveConstraints S.graphPolicy S.cycleOrder S.enableHCD S.enableLCD fuel F constraints
  return ⟨A.nodeFactory, g.nodeFactory, g.ptsGraph⟩

namespace Finished

def result (R : Finished) : AndersenResult PtrValue :=
  ⟨R.nodeFactory, R.maps.getValueNodeFor, R.ptsGraph⟩

def pts (R : Finished) (n : NodeIndex) : Set NodeIndex :=
  {o | ∃ set, R.ptsGraph (R.nodeFactory.getMergeTarget n) = some set ∧ o ∈ set}

def indexOf (R : Finished) (p : Place) : Option NodeIndex := Collection.indexOf ⟨R.maps, []⟩ p

/-- What the clients rely on. -/
structure Sound (R : Finished) : Prop where
  factory : R.nodeFactory.WellFormed
  numNodes : R.nodeFactory.numNodes = R.maps.numNodes
  inside : ∀ p n, R.indexOf p = some n → n < R.maps.numNodes
  root : ∀ n, (R.ptsGraph n).isSome = true →
    R.nodeFactory.getMergeTarget n = n ∧ n < R.maps.numNodes

end Finished

/-- What the options that are on ask of the constraints: no table that a pass of the optimiser
    goes through rehashes, the REF node of node 0 is guarded there, and hybrid cycle detection
    is harmless. -/
structure Settings.Safe (S : Settings) (N : Nat) (cs : List AndersConstraint) : Prop where
  steady : AtPasses (Steady S.graphPolicy) S.graphPolicy S.mapOrder S.enableHVN S.enableHU N cs
  guarded : AtPasses RefZeroGuarded S.graphPolicy S.mapOrder S.enableHVN S.enableHU N cs
  hcd : S.enableHCD = true → ∀ F cs', optimizeConstraints S.graphPolicy S.mapOrder S.enableHVN
    S.enableHU (.fresh N) cs = some (F, cs') → Harmless S.graphPolicy F cs'

def hashed (enableHVN enableLCD : Bool) : Settings :=
  ⟨enableHVN, false, false, enableLCD, HashTable.Libstdcxx.policy, bucketOrder, bucketOrder⟩

theorem hashed_safe {enableLCD : Bool} {N : Nat} {cs : List AndersConstraint} :
    (hashed false enableLCD).Safe N cs := ⟨⟨nofun, nofun⟩, ⟨nofun, nofun⟩, nofun⟩

section Phases
variable {F : AndersNodeFactory} {cs : List AndersConstraint} {N : Nat}

theorem solveConstraints_wellFormed {policy : HashTable.Policy NodeIndex} {order : HashOrder}
    {hcd lcd : Bool} {fuel : Nat} {g : Graphs} (wf : F.WellFormed)
    (valid : ValidConstraints F.numNodes cs)
    (run : solveConstraints policy order hcd lcd fuel F cs = some g) :
    g.WellFormed F.numNodes := by
  obtain ⟨F', collapseMap, s, found, iterated, rfl⟩ := solveConstraints_inv run
  obtain ⟨wf', size', inside⟩ : F'.WellFormed ∧ F'.numNodes = F.numNodes ∧
      (hcd = true → ∀ n t, collapseMap.find n = some t → t < F.numNodes) := by
    cases hcd with
    | false =>
      have same : F = F' ∧ DenseMap.empty = collapseMap := by simpa using found
      obtain ⟨rfl, rfl⟩ := same
      exact ⟨wf, rfl, by simp⟩
    | true =>
      have detected : OfflineCycleDetector.run policy order F cs = some (F', collapseMap) := by
        simpa using found
      have steady := OfflineCycleDetector.steady_of_run order wf rfl valid detected
      have apart := OfflineCycleDetector.apart_of_run order wf rfl valid detected
      obtain ⟨F₂, map₂, again, merged, names⟩ :=
        OfflineCycleDetector.run_spec steady order wf rfl valid apart
      obtain ⟨rfl, rfl⟩ := Prod.mk.inj (Option.some.inj (detected.symm.trans again))
      exact ⟨merged.wf, merged.size, fun _ n t here => (names n t here).1⟩
  -- the invariant of the run, of which the constraints are no part here
  let S : System NodeIndex := ⟨fun _ _ => True, fun _ _ => True, fun _ _ => True, fun _ _ => True⟩
  have all : ∀ n, solution S n = Set.univ :=
    fun n => Set.eq_univ_of_forall fun o => .addrOf trivial
  obtain ⟨fuel₀, s', ran, done, _⟩ := solve_between (S := S)
    (T := ⟨fun _ _ => False, fun _ _ => False, fun _ _ => False, fun _ _ => False⟩) order hcd lcd
    collapseMap wf' size' valid ⟨by simp [all], by simp [all], by simp [all], by simp [all]⟩
    (by simp [all]) ⟨by simp, by simp, by simp, by simp⟩ fun on => ⟨inside on, by simp [all]⟩
  have more := Solver.iterate_stable order iterated (le_max_right fuel₀ fuel)
  rw [ran _ (le_max_left fuel₀ fuel)] at more
  rw [← Option.some.inj more]
  exact done.valid.wf

end Phases

section Run
variable {S : Settings} {names : FuncId → String} {M : PtrModule} {A : Collection}

theorem collected_valid {flows : Set Flow} (renders : A.Renders flows) :
    ValidConstraints A.nodeFactory.numNodes A.constraints := by
  obtain ⟨naming, rendered⟩ := renders
  intro c mem
  obtain ⟨p, q, isDest, isSrc, _⟩ := rendered.forth c mem
  exact ⟨rendered.below c.dest p isDest, rendered.below c.src q isSrc⟩

theorem optimised_spec {N : Nat} {cs : List AndersConstraint} (valid : ValidConstraints N cs)
    (safe : S.Safe N cs) :
    ∃ F' cs', optimizeConstraints S.graphPolicy S.mapOrder S.enableHVN S.enableHU (.fresh N) cs =
      some (F', cs') ∧ F'.WellFormed ∧ F'.numNodes = N ∧ ValidConstraints N cs' ∧
      solution (constraintSystem cs) ≤ solution (mergedSystem F' cs') := by
  rcases optimizeConstraints_spec S.graphPolicy S.mapOrder S.enableHVN S.enableHU valid with
    ⟨_, F', cs', run, wf, size, valid', kept⟩ | ⟨unsteady, _⟩
  · exact ⟨F', cs', run, wf, size, valid', kept safe.guarded⟩
  · exact absurd safe.steady unsteady

theorem runOnModule_spec {flows : Set Flow} (renders : A.Renders flows)
    (collected : collectConstraints (addConstraintForExternalLibrary names M) M = some A)
    (safe : S.Safe A.nodeFactory.numNodes A.constraints) :
    ∃ fuel₀ R, (∀ fuel ≥ fuel₀, runOnModule S names fuel M = some R) ∧ R.Sound ∧
      R.maps = A.nodeFactory ∧ (∀ n, solution (constraintSystem A.constraints) n ⊆ R.pts n) ∧
      (S.enableHVN = false → S.enableHU = false →
        ∀ n, R.pts n = solution (constraintSystem A.constraints) n) := by
  have valid := collected_valid renders
  obtain ⟨F₂, cs₂, optimised, wf, size, valid', kept⟩ := optimised_spec valid safe
  have sized : ValidConstraints F₂.numNodes cs₂ := size ▸ valid'
  obtain ⟨fuel₀, g, ran, targets⟩ := solve_merged wf sized
    (fun on => (safe.hcd on _ _ optimised).offlineSafe wf)
    fun on => (safe.hcd on _ _ optimised).runSafe wf sized S.cycleOrder S.enableLCD
  have graphs := solveConstraints_wellFormed wf (size ▸ valid') (ran fuel₀ (Nat.le_refl _))
  obtain ⟨naming, rendered⟩ := renders
  let R : Finished := ⟨A.nodeFactory, g.nodeFactory, g.ptsGraph⟩
  have same : ∀ n, R.pts n = solution (mergedSystem F₂ cs₂) n := by
    intro n
    rw [← targets n]
    ext o
    unfold Finished.pts Graphs.pts
    cases entry : g.ptsGraph (g.nodeFactory.getMergeTarget n) <;> simp [R, entry]
  have sizes : g.nodeFactory.numNodes = A.nodeFactory.numNodes := graphs.size.trans size
  refine ⟨fuel₀, R, ?_, ⟨graphs.factory, sizes, ?_, ?_⟩, rfl, ?_, ?_⟩
  · intro fuel le
    simp [runOnModule, collected, optimised, ran fuel le, R]
  · intro p n found
    exact rendered.below n p (rendered.named p n found)
  · intro n entry
    exact ⟨(graphs.entry_root n entry).1, size ▸ (graphs.entry_root n entry).2⟩
  · intro n o known
    rw [same]
    exact kept n known
  · intro offHVN offHU n
    have unchanged : F₂ = .fresh A.nodeFactory.numNodes ∧ cs₂ = A.constraints := by
      rw [offHVN, offHU] at optimised
      simpa [optimizeConstraints, eq_comm] using optimised
    rw [same, unchanged.1, unchanged.2]
    exact congrFun mergedSystem_fresh n

theorem runOnModule_stable {fuel more : Nat} {R : Finished}
    (run : runOnModule S names fuel M = some R) (le : fuel ≤ more) :
    runOnModule S names more M = some R := by
  obtain ⟨A, collected, run⟩ := bind_some run
  obtain ⟨⟨F, cs⟩, optimised, run⟩ := bind_some run
  obtain ⟨g, solved, done⟩ := bind_some run
  have again := solveConstraints_stable solved le
  simp only [runOnModule, collected, optimised, again, Option.bind_eq_bind, Option.bind_some]
  exact done

/-- What holds of the pass however much fuel it was given. -/
theorem finished_spec {fuel : Nat} {R : Finished} (run : runOnModule S names fuel M = some R)
    (collected : collectConstraints (addConstraintForExternalLibrary names M) M = some A)
    (safe : S.Safe A.nodeFactory.numNodes A.constraints) :
    R.Sound ∧ R.maps = A.nodeFactory ∧
      (∀ n, solution (constraintSystem A.constraints) n ⊆ R.pts n) ∧
      (S.enableHVN = false → S.enableHU = false →
        ∀ n, R.pts n = solution (constraintSystem A.constraints) n) := by
  obtain ⟨fuel₀, R', ran, spec⟩ :=
    runOnModule_spec (collectConstraints_renders collected) collected safe
  have more := runOnModule_stable run (le_max_right fuel₀ fuel)
  rw [ran _ (le_max_left fuel₀ fuel)] at more
  exact Option.some.inj more ▸ spec

theorem runOnModule_total
    (collected : collectConstraints (addConstraintForExternalLibrary names M) M = some A)
    (safe : S.Safe A.nodeFactory.numNodes A.constraints) :
    ∃ fuel₀ R, ∀ fuel ≥ fuel₀, runOnModule S names fuel M = some R := by
  obtain ⟨fuel₀, R, ran, _⟩ :=
    runOnModule_spec (collectConstraints_renders collected) collected safe
  exact ⟨fuel₀, R, ran⟩

theorem index_collected {R : Finished} (maps : R.maps = A.nodeFactory) (p : Place) :
    R.indexOf p = A.indexOf p := by
  unfold Finished.indexOf
  rw [maps]
  cases p <;> rfl

/-- Without offline substitution every place that has a node points to exactly the objects of
    the least solution. -/
theorem exact_of_run {fuel : Nat} {R : Finished} (run : runOnModule S names fuel M = some R)
    (collected : collectConstraints (addConstraintForExternalLibrary names M) M = some A)
    (safe : S.Safe A.nodeFactory.numNodes A.constraints) (offHVN : S.enableHVN = false)
    (offHU : S.enableHU = false) {p : Place} {n : NodeIndex} (isN : R.indexOf p = some n)
    (o : NodeIndex) : o ∈ R.pts n ↔
      ∃ q, R.indexOf q = some o ∧ q ∈ solution (flowSystem (M.flows names)) p := by
  obtain ⟨_, maps, _, exact⟩ := finished_spec run collected safe
  have renders := collectConstraints_renders collected
  have index := index_collected maps
  rw [index] at isN
  rw [exact offHVN offHU]
  constructor
  · intro derived
    obtain ⟨naming, rendered⟩ := id renders
    obtain ⟨p', q, _, isO, flows⟩ := (renames_of_rendered rendered).forth derived
    obtain ⟨e, taken⟩ := address_of_derives flows
    obtain ⟨k, isK⟩ := rendered.object _ taken rfl
    obtain rfl := rendered.index_unique isK isO
    exact ⟨q, (index q).trans isK, (solution_of_renders renders isN isK).mp derived⟩
  · rintro ⟨q, isO, reached⟩
    rw [index] at isO
    exact (solution_of_renders renders isN isO).mpr reached

/-- The pass comes through for every module of which the constraints can be collected, and
    its points-to graph is what the flows of the module lead to, whatever the module calls. -/
theorem runOnModule_exact
    (collected : collectConstraints (addConstraintForExternalLibrary names M) M = some A)
    (safe : S.Safe A.nodeFactory.numNodes A.constraints) (offHVN : S.enableHVN = false)
    (offHU : S.enableHU = false) :
    ∃ fuel₀ R, (∀ fuel ≥ fuel₀, runOnModule S names fuel M = some R) ∧
      (∀ p n, R.indexOf p = some n → ∀ o, o ∈ R.pts n ↔
        ∃ q, R.indexOf q = some o ∧ q ∈ solution (flowSystem (M.flows names)) p) ∧
      ∀ f ∈ M.flows names, (∀ p q, f.dest ≠ .between p q) → ∃ n, R.indexOf f.dest = some n := by
  obtain ⟨fuel₀, R, ran⟩ := runOnModule_total collected safe
  have run := ran fuel₀ (Nat.le_refl _)
  obtain ⟨_, maps, _⟩ := finished_spec run collected safe
  refine ⟨fuel₀, R, ran, fun p n => exact_of_run run collected safe offHVN offHU, ?_⟩
  intro f mem lasting
  obtain ⟨n, isN⟩ := (collectConstraints_renders collected).used_node mem lasting
  exact ⟨n, (index_collected maps f.dest).trans isN⟩

end Run

theorem selfStored_made : ⟨.COPY, .slot (.value (.instruction 0)), .universalPtr⟩ ∈
    selfStored.flows fun _ => "main" := by
  refine .inr (.inr (Set.mem_iUnion₂.mpr ⟨_, List.getElem_mem (Nat.zero_lt_one), rfl, ?_⟩))
  exact Set.mem_iUnion₂.mpr ⟨⟨0, true, .intToPtr .unknown⟩, List.mem_cons_self .., rfl, rfl, rfl⟩

theorem selfStored_unknown : .universalObject ∈
    solution (flowSystem (selfStored.flows fun _ => "main")) (.slot (.value (.instruction 0))) :=
  .copy selfStored_made (.addrOf (.inl (.inl rfl)))

/-- With lazy cycle detection, and what the number pointed to. -/
theorem selfStored_solved : ∃ fuel₀ R n,
    (∀ fuel ≥ fuel₀, runOnModule (hashed false true) (fun _ => "main") fuel selfStored = some R) ∧
    R.indexOf (.slot (.value (.instruction 0))) = some n ∧ UniversalObjIndex ∈ R.pts n := by
  obtain ⟨A, collected⟩ : ∃ A, collectConstraints
      (addConstraintForExternalLibrary (fun _ => "main") selfStored) selfStored = some A := ⟨_, rfl⟩
  obtain ⟨fuel₀, R, run, exact, used⟩ :=
    runOnModule_exact (S := hashed false true) collected hashed_safe rfl rfl
  obtain ⟨n, index⟩ := used _ selfStored_made nofun
  exact ⟨fuel₀, R, n, run, index, (exact _ n index _).mpr ⟨_, rfl, selfStored_unknown⟩⟩

/-! ### Executions -/

namespace Finished
variable {R : Finished} {M : PtrModule}

def MayPoint (R : Finished) (n : Option NodeIndex) (o : MemoryObject) : Prop :=
  ∃ k b, n = some k ∧ R.maps.objNodeMap o.site = some b ∧ b ∈ R.pts k

/-- What is asked of the points-to graph in a state of an execution. -/
structure Approximates (R : Finished) (M : PtrModule) (s : State) : Prop where
  values : ∀ φ ∈ s.frames, ∀ v, v.isPointerIn M φ.function = true → ∀ a, φ.eval v = some a →
    R.MayPoint (R.maps.getValueNodeFor v) a.object
  memory : ∀ c a, s.memory c = some a → R.MayPoint (R.maps.objNodeMap c.object.site) a.object

end Finished

section Executions
variable {S : Settings} {names : FuncId → String} {M : PtrModule}
  (plain : M.Plain) (overridable : OverridableNull M)
  (safe : ∀ A, collectConstraints (addConstraintForExternalLibrary names M) M = some A →
    S.Safe A.nodeFactory.numNodes A.constraints)
include plain overridable safe

theorem approximates_of_run {fuel : Nat} {R : Finished}
    (run : runOnModule S names fuel M = some R) {s : State} (reachable : Reachable M s) :
    R.Approximates M s := by
  obtain ⟨A, collected, approximates⟩ := collectConstraints_approximates
    (addConstraintForExternalLibrary names M) plain overridable
  obtain ⟨_, maps, kept, _⟩ := finished_spec run collected (safe A collected)
  have mayPoint : ∀ n o, A.MayPoint n o → R.MayPoint n o := by
    rintro n o ⟨k, b, isK, isB, derived⟩
    exact ⟨k, b, isK, by rw [maps]; exact isB, kept k derived⟩
  constructor
  · intro φ mem v pointer a holds
    rw [maps]
    exact mayPoint _ _ ((approximates s reachable).values φ mem v pointer a holds)
  · intro c a holds
    rw [maps]
    exact mayPoint _ _ ((approximates s reachable).memory c a holds)

/-- The pass comes through, and its graph has every address that a pointer or a cell of
    memory holds in any state of any execution. -/
theorem runOnModule_approximates :
    ∃ fuel₀ R, (∀ fuel ≥ fuel₀, runOnModule S names fuel M = some R) ∧
      ∀ s, Reachable M s → R.Approximates M s := by
  obtain ⟨A, collected, _⟩ := collectConstraints_approximates
    (addConstraintForExternalLibrary names M) plain overridable
  obtain ⟨fuel₀, R, ran⟩ := runOnModule_total collected (safe A collected)
  exact ⟨fuel₀, R, ran, fun s =>
    approximates_of_run plain overridable safe (ran fuel₀ (Nat.le_refl _))⟩

end Executions

theorem passedThrough_safe {A : Collection} (collected : collectConstraints
    (addConstraintForExternalLibrary (fun _ => "main") passedThrough) passedThrough = some A) :
    (hashed true false).Safe A.nodeFactory.numNodes A.constraints := by
  have answer : (collectConstraints (addConstraintForExternalLibrary (fun _ => "main")
      passedThrough) passedThrough).map (fun A =>
        (A.constraints.all fun c => (c.type = .LOAD ∨ c.type = .COPY → c.src ≠ 0),
          decide (Steady HashTable.Libstdcxx.policy (.fresh A.nodeFactory.numNodes)
            A.constraints))) = some (true, true) := by
    decide +kernel
  rw [collected, Option.map_some, Option.some.injEq, Prod.mk.injEq] at answer
  obtain ⟨unread, steady⟩ := answer
  refine ⟨⟨fun _ => of_decide_eq_true steady, nofun⟩, ⟨fun _ => ?_, nofun⟩, nofun⟩
  refine guarded_of_unread (fresh_wellFormed _)
    (collected_valid (collectConstraints_renders collected)) fun c mem reads => ?_
  rw [fresh_target]
  exact of_decide_eq_true (List.all_eq_true.mp unread c mem) reads

theorem passedThrough_solved : ∃ fuel₀ R,
    (∀ fuel ≥ fuel₀, runOnModule (hashed true false) (fun _ => "main") fuel passedThrough =
      some R) ∧ R.MayPoint (R.maps.getValueNodeFor (.instruction 3)) (.global 0) := by
  obtain ⟨fuel₀, R, run, approximates⟩ := runOnModule_approximates passedThrough_plain
    (fun G mem overridden => by
      rw [List.mem_singleton.mp mem] at overridden
      cases overridden) fun A collected => passedThrough_safe collected
  obtain ⟨s, reachable, φ, mem, pointer, holds⟩ := passedThrough_returned
  exact ⟨fuel₀, R, run, (approximates s reachable).values φ mem _ pointer _ holds⟩

end ProgramSlicer.Andersen
