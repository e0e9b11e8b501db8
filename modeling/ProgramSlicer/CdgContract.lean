import ProgramSlicer.EntryKept

/-!
What `CDG::runOnFunction` guarantees for one function: its edges are the control
dependences, when ENTRY leads to every block, and when no NULL tree node is
dereferenced. The walk itself is structural on the chain of post-dominators.
-/
namespace ProgramSlicer
open ControlDependence FoldRules

namespace CDG
variable {t : PostDominatorTree} {F : Function}

theorem runOnFunction_edges (tree : t.Correct F) (inside : F.SuccessorsLocal) {g g' : Graph}
    (run : runOnFunction t F g = some g') {a b : Option BlockId} (notEntry : a ≠ none ∨ b = none) :
    g'.Connected a b ↔ g.Connected a b ∨ ∃ x n, a = some x ∧ b = some n ∧ DependsOn F.Edge n x := by
  obtain ⟨walked, walk, rest⟩ := bind_some run
  have same : F.blocks.foldl addEntryEdge walked = g' := by simpa using rest
  rw [← same, addEntryEdges_connected, edgeWalk_connected tree inside walk]
  have noNew : ¬ (a = none ∧ ∃ B ∈ F.blocks, b = some B.id ∧
      ∀ x, ¬ walked.Connected x (some B.id)) := by
    rintro ⟨isNone, B, _, target, _⟩
    rcases notEntry with other | noTarget
    · exact other isNone
    · rw [noTarget] at target
      cases target
  simp only [noNew, or_false]

/-- The pass comes through, records no NULL block, and connects B to N exactly when
    N post-dominates a successor of B without strictly post-dominating B. -/
theorem runOnFunction_controlDependence (tree : t.Correct F) (inside : F.SuccessorsLocal)
    (exits : ∀ B ∈ F.blocks, ReachesExit F.Edge B.id) (g : Graph) :
    ∃ g', runOnFunction t F g = some g' ∧
      (∀ a, g'.Connected a none ↔ g.Connected a none) ∧
      ∀ B N, g'.Connected (some B) (some N) ↔ g.Connected (some B) (some N) ∨
        ∃ S, F.Edge B S ∧ PostDominates F.Edge N S ∧ ¬ StrictlyPostDominates F.Edge N B := by
  obtain ⟨g', run⟩ := runOnFunction_total tree inside exits g
  refine ⟨g', run, fun a => ?_, fun B N => ?_⟩
  · rw [runOnFunction_edges tree inside run (Or.inr rfl)]
    simp
  · rw [runOnFunction_edges tree inside run (Or.inl (by simp))]
    simp [ControlDependence.DependsOn]

theorem oneLoop_exits : ∀ B ∈ oneLoop.bareFunction.blocks,
    ReachesExit oneLoop.bareFunction.Edge B.id := by
  intro B hB
  obtain ⟨x, hx, rfl⟩ := List.mem_map.mp hB
  rw [edge_of_cfg oneLoop.bare_hasCfg]
  exact oneLoop_connected.exits x hx

theorem oneLoop_controlDependence : ∃ g', runOnFunction oneLoopTree oneLoop.bareFunction {} =
      some g' ∧
    (∀ a, g'.Connected a none ↔ ({} : Graph).Connected a none) ∧
    ∀ B N, g'.Connected (some B) (some N) ↔ ({} : Graph).Connected (some B) (some N) ∨
      ∃ S, oneLoop.bareFunction.Edge B S ∧ PostDominates oneLoop.bareFunction.Edge N S ∧
        ¬ StrictlyPostDominates oneLoop.bareFunction.Edge N B :=
  runOnFunction_controlDependence (oneLoopTree_correct oneLoop.bare_hasCfg) (by decide)
    oneLoop_exits {}

section Entry

theorem edge_source {F : Function} {b c : BlockId} (edge : F.Edge b c) :
    ∃ B ∈ F.blocks, B.id = b := by
  obtain ⟨B, hB, same, _⟩ := edge
  exact ⟨B, hB, same⟩

theorem grounded_of_path {g : Graph}
    (into : ∀ B ∈ F.blocks, ∀ x, g.Connected x (some B.id) → ControlEdge F x (some B.id))
    {y : Option BlockId} (path : Relation.ReflTransGen g.Connected none y) :
    ∀ B ∈ F.blocks, y = some B.id → Grounded F.Edge B.id := by
  induction path with
  | refl => exact fun B _ same => by cases same
  | @tail x y _ last ih =>
    intro B hB same
    subst same
    have edge := into B hB x last
    generalize target : some B.id = z at edge
    cases edge with
    | entry inF free =>
      rw [Option.some.inj target]
      exact ⟨_, free, .refl⟩
    | @dep n b dep =>
      obtain ⟨s, edge, rest⟩ := dep
      obtain ⟨C, hC, rfl⟩ := edge_source edge
      rw [Option.some.inj target]
      exact grounded_step (ih C hC rfl) ⟨s, edge, rest⟩

theorem path_of_grounded {g : Graph} (out : ∀ a b, ControlEdge F a b → g.Connected a b)
    {B : BasicBlock} (hB : B ∈ F.blocks) (ground : Grounded F.Edge B.id) :
    Relation.ReflTransGen g.Connected none (some B.id) := by
  obtain ⟨r, free, chain⟩ := ground
  have root : ∃ R ∈ F.blocks, R.id = r := by
    rcases Relation.ReflTransGen.cases_head chain with same | ⟨c, dep, _⟩
    · exact ⟨B, hB, same.symm⟩
    · obtain ⟨s, edge, _⟩ := dep
      exact edge_source edge
  obtain ⟨R, hR, rfl⟩ := root
  generalize B.id = b at chain
  induction chain with
  | refl => exact .single (out _ _ (.entry hR free))
  | tail _ dep ih => exact ih.tail (out _ _ (.dep dep))

/-- ENTRY leads to every block exactly if no block that all runs pass lies on a cycle. -/
theorem entry_reaches_all_iff (tree : t.Correct F) (inside : F.SuccessorsLocal)
    {first : BasicBlock} {rest : List BasicBlock} (blocks : F.blocks = first :: rest)
    (reachable : ∀ B ∈ F.blocks, Relation.ReflTransGen F.Edge first.id B.id)
    (exits : ∀ B ∈ F.blocks, ReachesExit F.Edge B.id) {g : Graph}
    (fresh : ∀ B ∈ F.blocks, ∀ x, ¬ g.Connected x (some B.id)) :
    ∃ g', runOnFunction t F g = some g' ∧
      ((∀ B ∈ F.blocks, Relation.ReflTransGen g'.Connected none (some B.id)) ↔
        ∀ B ∈ F.blocks, PostDominates F.Edge B.id first.id →
          ¬ Relation.TransGen F.Edge B.id B.id) := by
  obtain ⟨g', run⟩ := runOnFunction_total tree inside exits g
  refine ⟨g', run, ?_⟩
  have conn := runOnFunction_connected tree inside
    (fun B hB x edge => absurd edge (fresh B hB x)) run
  have start : ∃ B ∈ F.blocks, B.id = first.id := ⟨first, by simp [blocks], rfl⟩
  have exitsEdge : ∀ {x y}, F.Edge x y → ReachesExit F.Edge y := by
    intro x y ⟨B, hB, _, hy⟩
    obtain ⟨C, hC, rfl⟩ := inside B hB y hy
    exact exits C hC
  have reach : ∀ {x y}, F.Edge x y → Relation.ReflTransGen F.Edge first.id x := by
    intro x y edge
    obtain ⟨B, hB, rfl⟩ := edge_source edge
    exact reachable B hB
  have grounds := all_grounded_iff exitsEdge reach
  constructor
  · intro all
    have acyclic := grounds.mp fun b path => by
      obtain ⟨B, hB, rfl⟩ := path_inside inside path start
      refine grounded_of_path (fun C hC x edge => ?_) (all B hB) B hB rfl
      exact ((conn _ _).mp edge).resolve_left (fresh C hC x)
    exact fun B hB => acyclic B.id (reachable B hB)
  · intro acyclic
    have ground := grounds.mpr fun b path => by
      obtain ⟨B, hB, rfl⟩ := path_inside inside path start
      exact acyclic B hB
    intro B hB
    exact path_of_grounded (fun a b edge => (conn a b).mpr (Or.inr edge)) hB
      (ground B.id (reachable B hB))

theorem oneLoop_reachable : ∀ B ∈ oneLoop.bareFunction.blocks,
    Relation.ReflTransGen oneLoop.bareFunction.Edge 0 B.id := by
  intro B hB
  obtain ⟨x, hx, rfl⟩ := List.mem_map.mp hB
  rw [edge_of_cfg oneLoop.bare_hasCfg]
  exact oneLoop_connected.reachable x hx

theorem oneLoop_entry_reaches_all_iff :
    ∃ g', runOnFunction oneLoopTree oneLoop.bareFunction {} = some g' ∧
      ((∀ B ∈ oneLoop.bareFunction.blocks,
          Relation.ReflTransGen g'.Connected none (some B.id)) ↔
        ∀ B ∈ oneLoop.bareFunction.blocks, PostDominates oneLoop.bareFunction.Edge B.id 0 →
          ¬ Relation.TransGen oneLoop.bareFunction.Edge B.id B.id) :=
  entry_reaches_all_iff (oneLoopTree_correct oneLoop.bare_hasCfg) (by decide)
    (rfl : oneLoop.bareFunction.blocks = Cfg.bareBlock (0, [1]) :: _) oneLoop_reachable oneLoop_exits
    fun B _ x => DirectedGraph.not_connected_empty x (some B.id)

/-- The loop's block depends on itself only; nothing leads there from ENTRY. -/
theorem oneLoop_entry_misses : oneLoopTree.Correct oneLoop.bareFunction ∧ oneLoop.Connected ∧
    ∃ g', runOnFunction oneLoopTree oneLoop.bareFunction {} = some g' ∧
      ∃ B ∈ oneLoop.bareFunction.blocks, ¬ Relation.ReflTransGen g'.Connected none (some B.id) := by
  refine ⟨oneLoopTree_correct oneLoop.bare_hasCfg, oneLoop_connected,
    { edges := [((none, some 2), none), ((none, some 0), none), ((some 1, some 1), none)]
      nodeSet := [some 2, some 0, none, some 1] }, by decide +kernel,
    Cfg.bareBlock (1, [1, 2]), by decide, fun path => ?_⟩
  have closed : ∀ y, Relation.ReflTransGen (DirectedGraph.Connected (E := Int)
      { edges := [((none, some 2), none), ((none, some 0), none), ((some 1, some 1), none)]
        nodeSet := [some 2, some 0, none, some 1] }) none y → y ≠ some 1 := by
    intro y path
    induction path with
    | refl => decide
    | tail _ edge ih =>
      obtain ⟨e, stored⟩ := edge
      simp only [List.mem_cons, Prod.mk.injEq, List.not_mem_nil, or_false] at stored
      grind
  exact closed _ path rfl

end Entry

section Safe

/-- The tree nodes that the pass dereferences exist exactly if every block reaches an exit. -/
theorem runOnFunction_safe_iff (tree : t.Correct F) (inside : F.SuccessorsLocal) (g : Graph) :
    (∃ g', runOnFunction t F g = some g') ↔ ∀ B ∈ F.blocks, ReachesExit F.Edge B.id := by
  constructor
  · intro ⟨g', run⟩ B _
    exact reachesExit_of_run tree run B.id
  · intro exits
    exact runOnFunction_total tree inside exits g

theorem oneLoop_safe_iff :
    (∃ g', runOnFunction oneLoopTree oneLoop.bareFunction {} = some g') ↔
      ∀ B ∈ oneLoop.bareFunction.blocks, ReachesExit oneLoop.bareFunction.Edge B.id :=
  runOnFunction_safe_iff (oneLoopTree_correct oneLoop.bare_hasCfg) (by decide) {}

def endless : Function where
  id := 0
  blocks := [⟨0, 0, [{ id := 0, opcode := .branch, succs := [0] }]⟩]

theorem endless_stuck (b : BlockId) : ¬ ((∃ B ∈ endless.blocks, B.id = b) ∧
    ReachesExit endless.Edge b) := by
  rintro ⟨⟨B, hB, rfl⟩, path⟩
  rw [endless, List.mem_singleton] at hB
  subst hB
  have again : endless.Edge 0 0 := ⟨_, List.mem_singleton_self _, rfl, by decide⟩
  have loop : ∀ c, ReachesExit endless.Edge c → c ≠ 0 := by
    intro c path
    induction path with
    | exit stop => exact fun same => stop 0 (same ▸ again)
    | step edge _ ih =>
      obtain ⟨C, hC, _, hc⟩ := edge
      rw [endless, List.mem_singleton] at hC
      subst hC
      exact absurd (List.mem_singleton.mp hc) ih
  exact loop 0 path rfl

/-- No block of it has a tree node, and the pass dereferences that of block 0. -/
theorem endless_unsafe : endless.SuccessorsLocal ∧
    PostDominatorTree.Correct ⟨fun _ => none⟩ endless ∧
    runOnFunction ⟨fun _ => none⟩ endless {} = none := by
  refine ⟨by decide, ⟨fun b => ?_, fun none => ?_, fun none => ?_, fun none => ?_, fun none => ?_⟩,
    by decide⟩
  · simpa using endless_stuck b
  all_goals cases none

end Safe
end CDG
end ProgramSlicer
