import ProgramSlicer.Andersen.FirstCollapse
import ProgramSlicer.Andersen.LeastSolution
import ProgramSlicer.Andersen.OfflineCycles

/-!
The solver with cycle detection against the solver without it. Lazy detection
changes nothing. Hybrid detection changes nothing as long as the offline cycles
are cycles of the solution and every collapse of the run is safe.
-/
namespace ProgramSlicer.Andersen
open InclusionConstraints AndersNodeFactory OfflineCycleDetector Relation

/-- The constraints, with one set for all the nodes that have been merged beforehand. -/
def mergedSystem (F : AndersNodeFactory) (cs : List AndersConstraint) : System NodeIndex :=
  (constraintSystem cs).identify F.getMergeTarget

section Offline
variable {F F' : AndersNodeFactory} {cs : List AndersConstraint} {N : Nat}

theorem solution_target (wf : F.WellFormed) (n : NodeIndex) :
    solution (mergedSystem F cs) (F.getMergeTarget n) = solution (mergedSystem F cs) n :=
  solution_identify (target_idem wf n)

theorem mergedSystem_solves (F : AndersNodeFactory) (cs : List AndersConstraint) :
    Solves (constraintSystem cs) (solution (mergedSystem F cs)) :=
  (solves_identify.mp (solution_solves _)).1

theorem represents_merged : Represents (mergedSystem F cs) F cs where
  addrOf _ _ c := c
  copy _ _ c := c
  load _ _ c := c
  store _ _ c := c

/-- The VAR nodes on one offline cycle have the same targets. -/
def CyclesEqual (F : AndersNodeFactory) (cs : List AndersConstraint) : Prop :=
  ∀ a b, a < F.numNodes → b < F.numNodes → Mutual F cs a b →
    solution (mergedSystem F cs) a = solution (mergedSystem F cs) b

theorem solution_offline (wf : F.WellFormed) (merged : Merged F cs F')
    (equal : CyclesEqual F cs) (n : NodeIndex) :
    solution (mergedSystem F cs) (F'.getMergeTarget n) = solution (mergedSystem F cs) n := by
  rcases merged.moved n with same | ⟨inside, inside', cycle⟩
  · rw [same, solution_target wf]
  · rw [equal _ _ inside inside' cycle, solution_target wf]

theorem represents_offline (merged : Merged F cs F') :
    Represents (mergedSystem F cs) F' cs where
  addrOf _ _ c := c
  copy d s c := c.imp id (merged.coarser d s)
  load _ _ c := c
  store _ _ c := c

section Targets
variable {collapseMap : DenseMap NodeIndex}
  (names : ∀ k t, collapseMap.find k = some t → t < F.numNodes ∧
    Mutual F cs t (getRefNodeIndex F k) ∧ t ≠ getRefNodeIndex F k)
include names

theorem load_on_cycle (wf : F.WellFormed) (valid : ValidConstraints F.numNodes cs)
    {k t : NodeIndex} (found : collapseMap.find k = some t) :
    ∃ d s, ⟨.LOAD, d, s⟩ ∈ cs ∧ F.getMergeTarget s = k ∧ Mutual F cs (F.getMergeTarget d) t := by
  obtain ⟨_, cycle, other⟩ := names k t found
  obtain ⟨w, edge, back⟩ := mutual_edge (mutual_symm cycle) (Ne.symm other)
  obtain ⟨d, s, hc, same, here⟩ := offlineEdge_from_ref wf valid edge
  exact ⟨d, s, hc, same, here ▸ back⟩

theorem targets_offline (wf : F.WellFormed) (valid : ValidConstraints F.numNodes cs)
    (equal : CyclesEqual F cs) : Targets (mergedSystem F cs) F.numNodes collapseMap := by
  have solves := mergedSystem_solves F cs
  refine ⟨fun k t found => (names k t found).1, ?_⟩
  intro k t found v pointee
  obtain ⟨inside, cycle, other⟩ := names k t found
  obtain ⟨d, s, load, same, back⟩ := load_on_cycle names wf valid found
  apply Set.Subset.antisymm
  · have loaded := solves.load d s load v (by rwa [← solution_target wf s, same])
    rw [← solution_target wf d] at loaded
    rwa [← equal _ _ (target_inside wf (valid _ load).1) inside back]
  · rcases ReflTransGen.cases_tail cycle.1 with itself | ⟨u, path, edge⟩
    · exact absurd itself.symm other
    · obtain ⟨p, q, store, sameP, sameQ⟩ := offlineEdge_to_ref wf valid edge
      have stored := solves.store p q store v (by rwa [← solution_target wf p, sameP])
      rw [← solution_target wf q, sameQ] at stored
      have bound : u < F.numNodes := sameQ ▸ target_inside wf (valid _ store).2
      rwa [equal t u inside bound ⟨path, .head edge cycle.2⟩]

theorem loaded_offline (wf : F.WellFormed) (valid : ValidConstraints F.numNodes cs)
    (merged : Merged F cs F') : Loaded (mergedSystem F cs) F' collapseMap := by
  have idem := target_idem wf
  intro k t found
  obtain ⟨inside, _, _⟩ := names k t found
  obtain ⟨d, s, load, same, back⟩ := load_on_cycle names wf valid found
  refine ⟨d, s, load, merged.coarser s k (by rw [← same, idem]), ?_⟩
  have first := merged.coarser d (F.getMergeTarget d) (idem d).symm
  exact first.trans (merged.joined _ _ (target_inside wf (valid _ load).1) inside back)

end Targets

end Offline

/-- Where the search and the merges before the run are harmless: the table does not rehash, node
    `N`, the REF node of node 0, is on no cycle, and the nodes of every cycle have the same
    targets anyway. -/
structure OfflineSafe (policy : HashTable.Policy NodeIndex) (F : AndersNodeFactory)
    (cs : List AndersConstraint) : Prop where
  steady : Steady policy F cs
  apart : ∀ b, Mutual F cs b F.numNodes → b = F.numNodes
  equal : CyclesEqual F cs

/-- Every collapse of the run with hybrid cycle detection leaves nothing undone. -/
def RunSafe (policy : HashTable.Policy NodeIndex) (order : HashOrder) (lcd : Bool)
    (F : AndersNodeFactory) (cs : List AndersConstraint) : Prop :=
  ∀ F' collapseMap, OfflineCycleDetector.run policy order F cs = some (F', collapseMap) →
    Solver.CollapsesSafe order true lcd collapseMap (initialWorkList (buildConstraintGraph F' cs))
      (solverStart F' cs)

/-- The solver stops with and without cycle detection, and every node has the same targets. -/
def OnlyOptimises (policy : HashTable.Policy NodeIndex) (order : HashOrder) (hcd lcd : Bool)
    (F : AndersNodeFactory) (cs : List AndersConstraint) : Prop :=
  ∃ fuel₀ g plain, (∀ fuel ≥ fuel₀, solveConstraints policy order hcd lcd fuel F cs = some g ∧
      solveConstraints policy order false false fuel F cs = some plain) ∧
    ∀ n < F.numNodes, g.pts (g.nodeFactory.getMergeTarget n) =
      plain.pts (plain.nodeFactory.getMergeTarget n)

/-! ### What the constraints tell beforehand -/

def CopyTo (F : AndersNodeFactory) (cs : List AndersConstraint) (a b : NodeIndex) : Prop :=
  ∃ d s, ⟨.COPY, d, s⟩ ∈ cs ∧ F.getMergeTarget s = a ∧ F.getMergeTarget d = b

/-- A copy, or a store and a load through pointers to which one address is copied. -/
inductive FlowsTo (F : AndersNodeFactory) (cs : List AndersConstraint) :
    NodeIndex → NodeIndex → Prop
  | copy {a b} (copied : CopyTo F cs a b) : FlowsTo F cs a b
  | through {p q d r k x} (store : ⟨.STORE, p, q⟩ ∈ cs) (load : ⟨.LOAD, d, r⟩ ∈ cs)
      (address : ⟨.ADDR_OF, k, x⟩ ∈ cs)
      (stored : ReflTransGen (CopyTo F cs) (F.getMergeTarget k) (F.getMergeTarget p))
      (loaded : ReflTransGen (CopyTo F cs) (F.getMergeTarget k) (F.getMergeTarget r)) :
      FlowsTo F cs (F.getMergeTarget q) (F.getMergeTarget d)

def MayBeWritten (F : AndersNodeFactory) (cs : List AndersConstraint) (k : NodeIndex) : Prop :=
  ∃ c ∈ cs, (c.type ≠ .STORE ∧ F.getMergeTarget c.dest = k) ∨
    (c.type = .ADDR_OF ∧ F.getMergeTarget c.src = k)

/-- Nothing flows into the node but addresses and what is loaded through some nodes, and
    nothing points to it. -/
structure LoadedOnly (F : AndersNodeFactory) (cs : List AndersConstraint)
    (through : NodeIndex → Prop) (m : NodeIndex) : Prop where
  copy : ∀ c ∈ cs, c.type = .COPY → F.getMergeTarget c.dest ≠ m
  load : ∀ c ∈ cs, c.type = .LOAD → F.getMergeTarget c.dest = m → through (F.getMergeTarget c.src)
  address : ∀ c ∈ cs, c.type = .ADDR_OF → F.getMergeTarget c.src ≠ m

/-- `k` is only given addresses, and the cycle of its REF node is entered through `k` alone. -/
def EnteredOnce (F : AndersNodeFactory) (cs : List AndersConstraint) (k : NodeIndex) : Prop :=
  LoadedOnly F cs (fun _ => False) k ∧ ∀ m < F.numNodes, Mutual F cs m (getRefNodeIndex F k) →
    LoadedOnly F cs (· = k) m

/-- The nodes that hybrid detection merges beforehand flow into one another. What it collapses
    is collapsed into the pointer itself, or there is nothing, or it is collapsed before anything
    else enters the cycle. -/
structure Harmless (policy : HashTable.Policy NodeIndex) (F : AndersNodeFactory)
    (cs : List AndersConstraint) : Prop where
  steady : Steady policy F cs
  apart : ∀ b, Mutual F cs b F.numNodes → b = F.numNodes
  flows : ∀ a b, a < F.numNodes → b < F.numNodes → Mutual F cs a b →
    ReflTransGen (FlowsTo F cs) a b
  own : ∀ k b, b ≠ getRefNodeIndex F k → Mutual F cs b (getRefNodeIndex F k) →
    Mutual F cs k (getRefNodeIndex F k) ∨ ¬ MayBeWritten F cs k ∨ EnteredOnce F cs k

section Harmless
variable {policy : HashTable.Policy NodeIndex} {F : AndersNodeFactory}
  {cs : List AndersConstraint}

theorem solution_copies (wf : F.WellFormed) {a b : NodeIndex}
    (copied : ReflTransGen (CopyTo F cs) a b) :
    solution (mergedSystem F cs) a ⊆ solution (mergedSystem F cs) b := by
  induction copied with
  | refl => exact subset_rfl
  | tail _ edge ih =>
    obtain ⟨d, s, c, rfl, rfl⟩ := edge
    refine ih.trans ?_
    rw [solution_target wf, solution_target wf]
    exact (mergedSystem_solves F cs).copy _ _ c

theorem solution_flows (wf : F.WellFormed) {a b : NodeIndex} (flows : FlowsTo F cs a b) :
    solution (mergedSystem F cs) a ⊆ solution (mergedSystem F cs) b := by
  have solves := mergedSystem_solves F cs
  cases flows with
  | copy copied => exact solution_copies wf (.single copied)
  | @through p q d r k x store load address stored loaded =>
    rw [solution_target wf, solution_target wf]
    have known : x ∈ solution (mergedSystem F cs) (F.getMergeTarget k) := by
      rw [solution_target wf]
      exact solves.addrOf k x address
    have atP : x ∈ solution (mergedSystem F cs) p := by
      rw [← solution_target wf p]
      exact solution_copies wf stored known
    have atR : x ∈ solution (mergedSystem F cs) r := by
      rw [← solution_target wf r]
      exact solution_copies wf loaded known
    exact (solves.store p q store x atP).trans (solves.load d r load x atR)

theorem Harmless.offlineSafe (wf : F.WellFormed) (harmless : Harmless policy F cs) :
    OfflineSafe policy F cs := by
  have along : ∀ a b, ReflTransGen (FlowsTo F cs) a b →
      solution (mergedSystem F cs) a ⊆ solution (mergedSystem F cs) b := by
    intro a b path
    induction path with
    | refl => exact subset_rfl
    | tail _ edge ih => exact ih.trans (solution_flows wf edge)
  refine ⟨harmless.steady, harmless.apart, fun a b ha hb cycle => ?_⟩
  exact (along a b (harmless.flows a b ha hb cycle)).antisymm
    (along b a (harmless.flows b a hb ha (mutual_symm cycle)))

theorem solution_given {k : NodeIndex} (only : LoadedOnly F cs (fun _ => False) k)
    {n v : NodeIndex} (hv : v ∈ solution (mergedSystem F cs) n) :
    ∃ d, ⟨.ADDR_OF, d, v⟩ ∈ cs ∧ (F.getMergeTarget n = k → F.getMergeTarget d = k) := by
  have solves : Solves (mergedSystem F cs) fun n => {v | ∃ d, ⟨.ADDR_OF, d, v⟩ ∈ cs ∧
      (F.getMergeTarget n = k → F.getMergeTarget d = k)} := by
    constructor
    case addrOf => exact fun d x c => ⟨d, c, fun here => here⟩
    case copy =>
      rintro d x (c | same) v ⟨e, address, _⟩
      · exact ⟨e, address, fun here => absurd here (only.copy _ c rfl)⟩
      · exact ⟨e, address, by rwa [same]⟩
    case load =>
      rintro d x c o _ v ⟨e, address, _⟩
      exact ⟨e, address, fun here => (only.load _ c rfl here).elim⟩
    case store =>
      rintro d x c o ⟨e', pointee, _⟩ v ⟨e, address, _⟩
      exact ⟨e, address, fun here => absurd here (only.address _ pointee rfl)⟩
  exact solution_le solves n hv

theorem solution_unwritten {k : NodeIndex} (root : F.getMergeTarget k = k)
    (unwritten : ¬ MayBeWritten F cs k) : solution (mergedSystem F cs) k = ∅ := by
  have only : LoadedOnly F cs (fun _ => False) k := by
    constructor
    · exact fun c mem type here => unwritten ⟨c, mem, .inl ⟨by simp [type], here⟩⟩
    · exact fun c mem type here => unwritten ⟨c, mem, .inl ⟨by simp [type], here⟩⟩
    · exact fun c mem type here => unwritten ⟨c, mem, .inr ⟨type, here⟩⟩
  refine Set.eq_empty_of_forall_notMem fun v hv => ?_
  obtain ⟨d, address, here⟩ := solution_given only hv
  exact unwritten ⟨_, address, .inl ⟨by simp, here root⟩⟩

theorem alone_of_loadedOnly {k b : NodeIndex} (low : k < F.numNodes) (only : LoadedOnly F cs (fun _ => False) k)
    (cycle : Mutual F cs b k) : b = k := by
  rcases ReflTransGen.cases_tail cycle.1 with same | ⟨u, _, ⟨type, d, s⟩, hc, edge⟩
  · exact same.symm
  · have high : ∀ x n : Nat, x < n → ∀ y, y + n ≠ x := by omega
    unfold OfflineCycleDetector.edgeOf getRefNodeIndex at edge
    cases type <;> simp only [Option.some.injEq, Prod.mk.injEq, reduceCtorEq] at edge
    · exact absurd edge.2 (only.copy _ hc rfl)
    · exact (only.load _ hc rfl edge.2).elim
    · exact absurd edge.2 (high _ _ low _)

section Once
variable {F' : AndersNodeFactory} {collapseMap : DenseMap NodeIndex}
  (wf : F.WellFormed) (valid : ValidConstraints F.numNodes cs) (merged : Merged F cs F')
  (names : ∀ k t, collapseMap.find k = some t → t < F.numNodes ∧
    Mutual F cs t (getRefNodeIndex F k) ∧ t ≠ getRefNodeIndex F k)
  {k t : NodeIndex} (found : collapseMap.find k = some t) (once : EnteredOnce F cs k)
include wf valid merged names found

theorem cycle_of_target {d : NodeIndex} (same : F'.getMergeTarget d = F'.getMergeTarget t) :
    Mutual F cs (F.getMergeTarget d) (getRefNodeIndex F k) := by
  obtain ⟨inside, cycle, other⟩ := names k t found
  have root : F.getMergeTarget t = t := mutual_root wf rfl valid cycle other inside
  have toTarget : ∀ n, Mutual F cs (F.getMergeTarget n) (F'.getMergeTarget n) := by
    intro n
    rcases merged.moved n with still | ⟨_, _, moved⟩
    · rw [still]
      exact Components.joined_refl _
    · exact mutual_symm moved
  have back := mutual_symm (toTarget t)
  rw [← same, root] at back
  exact mutual_trans (mutual_trans (toTarget d) back) cycle

include once

theorem key_of_target : F.getMergeTarget k = k ∧ F'.getMergeTarget k = k ∧
    ∀ d, F'.getMergeTarget d = F'.getMergeTarget k → F.getMergeTarget d = k := by
  obtain ⟨_, s, load, source, _⟩ := load_on_cycle names wf valid found
  have root : F.getMergeTarget k = k := source ▸ target_idem wf s
  have low : k < F.numNodes := source ▸ target_inside wf (valid _ load).2
  have alone := fun b => alone_of_loadedOnly (b := b) low once.1
  have still : F'.getMergeTarget k = k := by
    rcases merged.moved k with same | ⟨_, _, moved⟩
    · exact same.trans root
    · rw [root] at moved
      exact alone _ moved
  refine ⟨root, still, fun d same => ?_⟩
  rw [still] at same
  rcases merged.moved d with unmoved | ⟨_, _, moved⟩
  · exact unmoved.symm.trans same
  · rw [same] at moved
    exact alone _ (mutual_symm moved)

theorem loadedOnly_target {d : NodeIndex} (low : d < F.numNodes)
    (same : F'.getMergeTarget d = F'.getMergeTarget t) :
    LoadedOnly F cs (· = k) (F.getMergeTarget d) :=
  once.2 _ (target_inside wf low) (cycle_of_target wf valid merged names found same)

theorem collapsedOnce : Solver.CollapsedOnce (mergedSystem F cs) (mergedSystem F cs) F'
    collapseMap k t := by
  obtain ⟨root, _, key⟩ := key_of_target wf valid merged names found once
  constructor
  case found => exact found
  case pointees =>
    intro n v hv x hx same
    obtain ⟨d, address, _⟩ := solution_given once.1 hv
    rcases hx with rfl | rfl
    · exact once.1.address _ address rfl (key v same)
    · exact (loadedOnly_target wf valid merged names found once (valid _ address).2 same).address
        _ address rfl rfl
  case others =>
    intro n u named
    obtain ⟨inside, cycle, other⟩ := names n u named
    obtain ⟨d, s, load, source, back⟩ := load_on_cycle names wf valid named
    have rootU : F.getMergeTarget u = u := mutual_root wf rfl valid cycle other inside
    constructor
    · intro same
      have here : u = k := rootU.symm.trans (key u same)
      have alone := alone_of_loadedOnly (here ▸ inside) once.1
        (mutual_symm (here ▸ cycle))
      exact other (here.trans alone.symm)
    · intro same
      have onCycle := cycle_of_target wf valid merged names found same
      rw [rootU] at onCycle
      have only := once.2 _ (target_inside wf (valid _ load).1) (mutual_trans back onCycle)
      exact source.symm.trans (only.load _ load rfl rfl)
  case given =>
    intro v hv
    obtain ⟨d, address, here⟩ := solution_given once.1 hv
    exact ⟨d, address, merged.coarser d k ((here root).trans root.symm)⟩

theorem untouched_build : Untouched F' k t (buildConstraintGraph F' cs).view := by
  obtain ⟨root, still, key⟩ := key_of_target wf valid merged names found once
  have factory := (build_wellFormed merged.wf merged.size valid).1
  have rep : (buildConstraintGraph F' cs).view.rep = F'.getMergeTarget := by
    simp only [Graphs.view, factory]
  have idem := target_idem merged.wf
  constructor
  case key => rw [rep]; exact still
  case alone => rw [rep]; exact fun _ _ _ same => same
  case copy =>
    rw [rep]
    rintro x hx v ⟨e, edge, same⟩
    rw [factory] at same
    obtain ⟨d, s, ⟨_, hc, _, he⟩ | ⟨kind, _⟩ | ⟨kind, _⟩⟩ := edge_build_cases edge
    · rw [he, idem] at same
      rcases hx with rfl | rfl
      · exact once.1.copy _ hc rfl (key d same)
      · exact (loadedOnly_target wf valid merged names found once (valid _ hc).1 same).copy
          _ hc rfl rfl
    · exact ConstraintKind.noConfusion kind
    · exact ConstraintKind.noConfusion kind
  case load_key =>
    rw [rep]
    rintro v ⟨e, edge, same⟩
    rw [factory] at same
    obtain ⟨d, s, ⟨kind, _⟩ | ⟨_, hc, _, he⟩ | ⟨kind, _⟩⟩ := edge_build_cases edge
    · exact ConstraintKind.noConfusion kind
    · rw [he, idem] at same
      exact once.1.load _ hc rfl (key d same)
    · exact ConstraintKind.noConfusion kind
  case load_target =>
    rw [rep]
    rintro v ⟨e, edge, same⟩
    rw [factory] at same
    obtain ⟨d, s, ⟨kind, _⟩ | ⟨_, hc, hn, he⟩ | ⟨kind, _⟩⟩ := edge_build_cases edge
    · exact ConstraintKind.noConfusion kind
    · rw [he, idem] at same
      have source := (loadedOnly_target wf valid merged names found once (valid _ hc).1 same).load
        _ hc rfl rfl
      rw [hn, merged.coarser s k (source.trans root.symm)]
      exact still
    · exact ConstraintKind.noConfusion kind

end Once

theorem Harmless.runSafe (wf : F.WellFormed) (valid : ValidConstraints F.numNodes cs)
    (harmless : Harmless policy F cs) (order : HashOrder) (lcd : Bool) :
    RunSafe policy order lcd F cs := by
  have offline := harmless.offlineSafe wf
  intro F' collapseMap detected q rest s reached t found
  obtain ⟨F₂, map₂, again, merged, names⟩ := run_spec offline.steady order wf rfl valid
    offline.apart
  obtain ⟨rfl, rfl⟩ := Prod.mk.inj (Option.some.inj (detected.symm.trans again))
  have targets := targets_offline names wf valid offline.equal
  have start := build_valid merged.wf merged.size valid (mergedSystem_solves F cs)
    (solution_offline wf merged offline.equal)
  have covers := build_covers merged.wf merged.size valid (represents_offline merged)
  have factory := (build_wellFormed merged.wf merged.size valid).1
  have atStart : ∀ a b, F'.getMergeTarget a = F'.getMergeTarget b →
      (solverStart F' cs).rep a = (solverStart F' cs).rep b := by
    intro a b same
    show (buildConstraintGraph F' cs).nodeFactory.getMergeTarget a =
      (buildConstraintGraph F' cs).nodeFactory.getMergeTarget b
    rw [factory]
    exact same
  obtain ⟨validS, _, coarse⟩ :=
    Solver.reached_valid (fun _ => targets) start covers atStart reached
  have idem : ∀ n, s.rep (s.rep n) = s.rep n := target_idem validS.wf.factory
  obtain ⟨inside, cycle, other⟩ := names _ t found
  obtain ⟨d, r, load, same, _⟩ := load_on_cycle names wf valid found
  have low : s.rep q < F.numNodes := same ▸ target_inside wf (valid _ load).2
  rcases harmless.own _ t other cycle with onCycle | unwritten | entered
  · have joined := merged.joined t (s.rep q) inside low
      (mutual_trans cycle (mutual_symm onCycle))
    exact .inr (.inl ((coarse _ _ joined).trans (idem q)))
  · left
    have root : F.getMergeTarget (s.rep q) = s.rep q := by
      rw [← same, target_idem wf]
    intro m mem
    obtain ⟨o, pointee, _⟩ := List.mem_map.mp mem
    have known := validS.sound.pts (s.rep q) (SparseBitVector.mem_bits.mp pointee)
    rw [solution_unwritten root unwritten] at known
    exact absurd known (Set.notMem_empty o)
  · have once := collapsedOnce wf valid merged names found entered
    exact Solver.collapseSafe_of_once once validS (Solver.once_reached once targets start covers
      atStart (untouched_build wf valid merged names found entered) reached) t found

end Harmless

section Compare
variable {policy : HashTable.Policy NodeIndex} {order : HashOrder} {hcd lcd : Bool}
  {F : AndersNodeFactory} {cs : List AndersConstraint}

theorem solve_merged (wf : F.WellFormed) (valid : ValidConstraints F.numNodes cs)
    (offline : hcd = true → OfflineSafe policy F cs)
    (safe : hcd = true → RunSafe policy order lcd F cs) :
    ∃ fuel₀ g, (∀ fuel ≥ fuel₀, solveConstraints policy order hcd lcd fuel F cs = some g) ∧
      ∀ n, {o | o ∈ g.pts (g.nodeFactory.getMergeTarget n)} = solution (mergedSystem F cs) n := by
  cases hcd with
  | false =>
    obtain ⟨fuel₀, s, run, targets, _⟩ := solve_spec order false lcd .empty wf rfl valid
      (mergedSystem_solves F cs) (solution_target wf) represents_merged (by simp)
    exact ⟨fuel₀, s.toGraphs, fun fuel le => solveConstraints_run rfl (run fuel le),
      targets (by simp)⟩
  | true =>
    obtain ⟨steady, apart, equal⟩ := offline rfl
    obtain ⟨F', collapseMap, detected, merged, names⟩ := run_spec steady order wf rfl valid apart
    obtain ⟨fuel₀, s, run, targets, _⟩ := solve_spec order true lcd collapseMap merged.wf merged.size
      valid (mergedSystem_solves F cs) (solution_offline wf merged equal) (represents_offline merged)
      (fun _ => targets_offline names wf valid equal)
    refine ⟨fuel₀, s.toGraphs, fun fuel le => solveConstraints_run detected (run fuel le), ?_⟩
    exact targets fun _ => ⟨loaded_offline names wf valid merged, safe rfl F' collapseMap detected⟩

theorem solve_plain (policy : HashTable.Policy NodeIndex) (order : HashOrder)
    (wf : F.WellFormed) (valid : ValidConstraints F.numNodes cs) :
    ∃ fuel₀ g, (∀ fuel ≥ fuel₀, solveConstraints policy order false false fuel F cs = some g) ∧
      ∀ n, {o | o ∈ g.pts (g.nodeFactory.getMergeTarget n)} = solution (mergedSystem F cs) n :=
  solve_merged wf valid (by simp) (by simp)

theorem hcd_stops (wf : F.WellFormed) (valid : ValidConstraints F.numNodes cs) :
    (∃ fuel₀ g, ∀ fuel ≥ fuel₀, solveConstraints policy order true lcd fuel F cs = some g) ↔
      Steady policy F cs ∧ ∀ b, Mutual F cs b F.numNodes → b = F.numNodes := by
  constructor
  · rintro ⟨fuel₀, g, run⟩
    obtain ⟨_, _, _, detected, _⟩ := solveConstraints_inv (run fuel₀ (Nat.le_refl _))
    simp only [if_true] at detected
    exact ⟨steady_of_run order wf rfl valid detected, apart_of_run order wf rfl valid detected⟩
  · intro ⟨steady, apart⟩
    obtain ⟨F', collapseMap, detected, merged, names⟩ := run_spec steady order wf rfl valid apart
    obtain ⟨fuel₀, s, run, _⟩ := solve_total order true lcd collapseMap merged.wf
      merged.size valid fun _ k t found => (names k t found).1
    exact ⟨fuel₀, s.toGraphs, fun fuel le => solveConstraints_run detected (run fuel le)⟩

theorem offlineSafe_of_onlyOptimises (wf : F.WellFormed)
    (valid : ValidConstraints F.numNodes cs) (only : OnlyOptimises policy order true lcd F cs) :
    OfflineSafe policy F cs := by
  obtain ⟨fuel₁, g, plain, run, equal⟩ := only
  obtain ⟨steady, apart⟩ := (hcd_stops wf valid).mp ⟨fuel₁, g, fun fuel le => (run fuel le).1⟩
  refine ⟨steady, apart, ?_⟩
  obtain ⟨F', collapseMap, detected, merged, names⟩ := run_spec steady order wf rfl valid apart
  obtain ⟨fuel₂, s, runs, coarse⟩ := solve_total order true lcd collapseMap merged.wf
    merged.size valid fun _ k t found => (names k t found).1
  obtain ⟨fuel₃, plain', runs', targets⟩ := solve_plain policy order wf valid
  let fuel := max fuel₁ (max fuel₂ fuel₃)
  have first := run fuel (by omega)
  have same : g = s.toGraphs := by
    have again := solveConstraints_run (by simpa using detected) (runs fuel (by omega))
    rw [first.1] at again
    exact Option.some.inj again
  have same' : plain = plain' := by
    have again := runs' fuel (by omega)
    rw [first.2] at again
    exact Option.some.inj again
  intro a b ha hb cycle
  have joined : g.nodeFactory.getMergeTarget a = g.nodeFactory.getMergeTarget b := by
    rw [same]
    exact coarse a b (merged.joined a b ha hb cycle)
  have pts := equal a ha
  rw [joined, equal b hb, same'] at pts
  rw [← targets a, ← targets b, pts]

/-- In a run whose collapses are all safe, cycle detection is only an optimisation exactly where
    what happens before the run is harmless. -/
theorem onlyOptimises_iff (policy : HashTable.Policy NodeIndex) (order : HashOrder)
    (hcd lcd : Bool) (wf : F.WellFormed) (valid : ValidConstraints F.numNodes cs)
    (safe : hcd = true → RunSafe policy order lcd F cs) :
    OnlyOptimises policy order hcd lcd F cs ↔ (hcd = true → OfflineSafe policy F cs) := by
  constructor
  · rintro only rfl
    exact offlineSafe_of_onlyOptimises wf valid only
  · intro offline
    obtain ⟨fuel₁, g, run, targets⟩ := solve_merged wf valid offline safe
    obtain ⟨fuel₂, plain, run', targets'⟩ := solve_plain policy order wf valid
    refine ⟨max fuel₁ fuel₂, g, plain, ?_, ?_⟩
    · intro fuel le
      exact ⟨run fuel (le_trans (le_max_left _ _) le), run' fuel (le_trans (le_max_right _ _) le)⟩
    · intro n _
      apply SparseBitVector.eq_of_mem
      intro o
      exact Set.ext_iff.mp ((targets n).trans (targets' n).symm) o

end Compare

/-! ### Two inputs -/

/-- `q = *p; *p = q; p = &a; a = &b; r = q`, where `a` is collapsed into `q`. -/
def loadAndStoreBack : List AndersConstraint :=
  [⟨.LOAD, 2, 1⟩, ⟨.STORE, 1, 2⟩, ⟨.ADDR_OF, 1, 3⟩, ⟨.ADDR_OF, 3, 4⟩, ⟨.COPY, 5, 2⟩]

theorem loadAndStoreBack_edge {v w : NodeIndex} :
    OfflineEdge (.fresh 6) loadAndStoreBack v w ↔ (v, w) ∈ [(7, 2), (2, 7), (2, 5)] := by
  rw [← mem_edges]
  exact Iff.of_eq (congrArg ((v, w) ∈ ·) (by decide +kernel))

theorem loadAndStoreBack_loadedOnly {through : NodeIndex → Prop} {m : NodeIndex}
    (apart : m ≠ 5) (loaded : m = 2 → through 1) (unnamed : m ≠ 3 ∧ m ≠ 4) :
    LoadedOnly (.fresh 6) loadAndStoreBack through m := by
  constructor
  · simpa [loadAndStoreBack] using Ne.symm apart
  · simpa [loadAndStoreBack] using fun same => loaded same.symm
  · simpa [loadAndStoreBack] using ⟨Ne.symm unnamed.1, Ne.symm unnamed.2⟩

theorem loadAndStoreBack_harmless :
    Harmless HashTable.Libstdcxx.policy (.fresh 6) loadAndStoreBack := by
  have low : ∀ n : Nat, n < 6 → n = 7 ∨ n = 2 → n = 2 := by omega
  have ref : ∀ k : Nat, k + 6 = 7 ∨ k + 6 = 2 → k = 1 := by omega
  have source : ∀ v b, Mutual (.fresh 6) loadAndStoreBack v b → v ≠ b → v = 7 ∨ v = 2 := by
    intro v b cycle other
    obtain ⟨w, edge, _⟩ := mutual_edge cycle other
    have listed := loadAndStoreBack_edge.mp edge
    simp only [List.mem_cons, Prod.mk.injEq, List.not_mem_nil, or_false] at listed
    tauto
  constructor
  case steady => decide
  case apart =>
    intro b cycle
    by_contra other
    exact absurd (source _ b (mutual_symm cycle) (Ne.symm other)) (by decide)
  case flows =>
    intro a b ha hb cycle
    by_cases same : a = b
    · rw [same]
    · have first := source a b cycle same
      have second := source b a (mutual_symm cycle) (Ne.symm same)
      rw [low a ha first, low b hb second]
  case own =>
    intro k b other cycle
    rw [ref k (source _ b (mutual_symm cycle) (Ne.symm other))]
    refine .inr (.inr ⟨loadAndStoreBack_loadedOnly (by decide) (by decide) (by decide), ?_⟩)
    intro m hm onCycle
    have here : m = 2 := low m hm (source m _ onCycle (Nat.ne_of_lt (Nat.lt_succ_of_lt hm)))
    exact here ▸ loadAndStoreBack_loadedOnly (by decide) (fun _ => rfl) (by decide)

example : (solveConstraints HashTable.Libstdcxx.policy bucketOrder true true 9 (.fresh 6)
    loadAndStoreBack).map (fun g => (g.pts (g.nodeFactory.getMergeTarget 5)).bits) = some [4] := by
  decide +kernel

/-- `q = *p; *p = q; q = q; p = &a; a = &b; r = q`. The self edge of `q` is there from the
    start, so what the collapse of `a` into `q` brings is never passed on to `r`. -/
def lostFact : List AndersConstraint :=
  [⟨.LOAD, 2, 1⟩, ⟨.STORE, 1, 2⟩, ⟨.COPY, 2, 2⟩, ⟨.ADDR_OF, 1, 3⟩, ⟨.ADDR_OF, 3, 4⟩,
    ⟨.COPY, 5, 2⟩]

theorem lostFact_run :
    (solveConstraints HashTable.Libstdcxx.policy bucketOrder true false 4 (.fresh 6) lostFact).map
      (fun g => (g.pts (g.nodeFactory.getMergeTarget 5)).bits) = some [] ∧
    (solveConstraints HashTable.Libstdcxx.policy bucketOrder false false 4 (.fresh 6) lostFact).map
      (fun g => (g.pts (g.nodeFactory.getMergeTarget 5)).bits) = some [4] := by
  decide +kernel

end ProgramSlicer.Andersen
