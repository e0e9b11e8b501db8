import ProgramSlicer.Library.ControlDependence
import ProgramSlicer.Library.FoldRules
import ProgramSlicer.LlvmModule
import ProgramSlicer.DirectedGraph

/-!
`CDG::runOnFunction`. The post-dominator tree is LLVM's: a node is written with
its chain of immediate post-dominators, and `Correct` is what LLVM documents.
One CDG object serves all functions, so a run starts from the graph it finds.
-/
namespace ProgramSlicer
open ControlDependence FoldRules

inductive DomTreeNode where
  | root (block : Option BlockId)
  | child (block : Option BlockId) (idom : DomTreeNode)
  deriving DecidableEq, Repr

def DomTreeNode.getBlock : DomTreeNode → Option BlockId
  | .root b => b
  | .child b _ => b

def DomTreeNode.getIDom : DomTreeNode → Option DomTreeNode
  | .root _ => none
  | .child _ idom => some idom

structure PostDominatorTree where
  getNode : BlockId → Option DomTreeNode

structure PostDominatorTree.Correct (t : PostDominatorTree) (F : Function) : Prop where
  node_iff : ∀ b, (∃ n, t.getNode b = some n) ↔
    (∃ B ∈ F.blocks, B.id = b) ∧ ReachesExit F.Edge b
  block : ∀ {b n}, t.getNode b = some n → n.getBlock = some b
  idom : ∀ {b n m d}, t.getNode b = some n → n.getIDom = some m → m.getBlock = some d →
    ImmediatelyPostDominates F.Edge d b ∧ t.getNode d = some m
  virtual : ∀ {b n m}, t.getNode b = some n → n.getIDom = some m → m.getBlock = none →
    m.getIDom = none ∧ ∀ d, ¬ StrictlyPostDominates F.Edge d b
  top : ∀ {b n}, t.getNode b = some n → n.getIDom = none →
    (∀ d, ¬ StrictlyPostDominates F.Edge d b) ∧
      ∀ c m, t.getNode c = some m → PostDominates F.Edge b c

namespace CDG

abbrev Graph := DirectedGraph (Option BlockId) Int

/-- The while loop: from NNode upwards until the immediate post-dominator of B,
    or past the root. -/
def climb (B : BlockId) (stop : Option DomTreeNode) :
    DomTreeNode → Option BlockId → Graph → Graph
  | .root b, N, g => if stop = some (.root b) then g else g.insert (some B) N
  | .child b idom, N, g =>
      if stop = some (.child b idom) then g
      else climb B stop idom idom.getBlock (g.insert (some B) N)

/-- One successor N of B; `none` where a NULL tree node is dereferenced. -/
def visitSuccessor (t : PostDominatorTree) (B : BlockId) (g : Graph) (N : BlockId) :
    Option Graph :=
  match t.getNode B with
  | none => none
  | some BNode =>
    match t.getNode N with
    | some NNode => some (climb B BNode.getIDom NNode (some N) g)
    | none => if BNode.getIDom = none then some g else none

def addEntryEdge (g : Graph) (B : BasicBlock) : Graph :=
  if (g.getPredSet (some B.id)).isEmpty then g.insert none (some B.id) else g

def runOnFunction (t : PostDominatorTree) (F : Function) (g : Graph) : Option Graph := do
  let g ← F.blocks.foldlM (fun g B => B.successors.foldlM (visitSuccessor t B.id) g) g
  return F.blocks.foldl addEntryEdge g

def climbed (stop : Option DomTreeNode) : DomTreeNode → Option BlockId → List (Option BlockId)
  | .root b, N => if stop = some (.root b) then [] else [N]
  | .child b idom, N =>
      if stop = some (.child b idom) then [] else N :: climbed stop idom idom.getBlock

theorem climb_connected {B : BlockId} {stop : Option DomTreeNode} {node : DomTreeNode}
    {N a b : Option BlockId} {g : Graph} :
    (climb B stop node N g).Connected a b ↔
      g.Connected a b ∨ a = some B ∧ b ∈ climbed stop node N := by
  induction node generalizing N g with
  | root block =>
    unfold climb climbed
    split
    · simp
    · simp only [DirectedGraph.connected_insert, List.mem_singleton]
      exact or_comm
  | child block idom ih =>
    unfold climb climbed
    split
    · simp
    · rw [ih, DirectedGraph.connected_insert, List.mem_cons]
      tauto

theorem eq_root_of_virtual {n : DomTreeNode} (noBlock : n.getBlock = none)
    (noIDom : n.getIDom = none) : n = .root none := by
  cases n with
  | root b => exact congrArg _ noBlock
  | child b m => simp [DomTreeNode.getIDom] at noIDom

variable {t : PostDominatorTree} {F : Function}

theorem node_reaches (tree : t.Correct F) {b : BlockId} {n : DomTreeNode}
    (node : t.getNode b = some n) : ReachesExit F.Edge b := ((tree.node_iff b).mp ⟨n, node⟩).2

theorem inserted_not_strict (tree : t.Correct F) {B c : BlockId} {BNode x : DomTreeNode}
    (nodeB : t.getNode B = some BNode) (nodeC : t.getNode c = some x)
    (above : ∀ e, StrictlyPostDominates F.Edge e B → PostDominates F.Edge e c)
    (going : BNode.getIDom ≠ some x) : ¬ StrictlyPostDominates F.Edge c B := by
  intro strict
  cases up : BNode.getIDom with
  | none => exact (tree.top nodeB up).1 c strict
  | some m =>
    cases block : m.getBlock with
    | none => exact (tree.virtual nodeB up block).2 c strict
    | some p =>
      obtain ⟨imm, nodeP⟩ := tree.idom nodeB up block
      have same : p = c := postdominates_antisymm (node_reaches tree nodeC)
        (above p imm.1) (imm.2 c strict)
      subst same
      rw [nodeC] at nodeP
      exact going (by rw [up, Option.some.inj nodeP])

theorem virtual_root_stops (tree : t.Correct F) {B c : BlockId} {BNode x : DomTreeNode}
    (nodeB : t.getNode B = some BNode) (nodeC : t.getNode c = some x)
    (above : ∀ e, StrictlyPostDominates F.Edge e B → PostDominates F.Edge e c)
    (going : BNode.getIDom ≠ some x) {m : DomTreeNode} (up : x.getIDom = some m)
    (noBlock : m.getBlock = none) : BNode.getIDom = some m := by
  obtain ⟨mTop, noStrict⟩ := tree.virtual nodeC up noBlock
  cases upB : BNode.getIDom with
  | none =>
    by_cases same : B = c
    · subst same
      rw [nodeC] at nodeB
      rw [← Option.some.inj nodeB, up] at upB
      simp at upB
    · exact absurd ⟨(tree.top nodeB upB).2 c x nodeC, same⟩ (noStrict B)
  | some mB =>
    cases blockB : mB.getBlock with
    | none =>
      have mBTop := (tree.virtual nodeB upB blockB).1
      rw [eq_root_of_virtual blockB mBTop, eq_root_of_virtual noBlock mTop]
    | some p =>
      obtain ⟨imm, nodeP⟩ := tree.idom nodeB upB blockB
      by_cases same : p = c
      · subst same
        rw [nodeC] at nodeP
        exact absurd (by rw [upB, Option.some.inj nodeP]) going
      · exact absurd ⟨above p imm.1, same⟩ (noStrict p)

def Target (F : Function) (B c : BlockId) (b : Option BlockId) : Prop :=
  ∃ n, b = some n ∧ PostDominates F.Edge n c ∧ ¬ StrictlyPostDominates F.Edge n B

theorem no_target_at_stop {B c : BlockId} (reachB : ReachesExit F.Edge B)
    (imm : ImmediatelyPostDominates F.Edge c B) (b : Option BlockId) : ¬ Target F B c b := by
  rintro ⟨n, _, dom, notStrict⟩
  exact notStrict ((strict_through_immediate reachB imm).mpr dom)

theorem target_at_root {B c : BlockId} (alone : ∀ d, ¬ StrictlyPostDominates F.Edge d c)
    (notStrict : ¬ StrictlyPostDominates F.Edge c B) (b : Option BlockId) :
    b = some c ↔ Target F B c b := by
  constructor
  · intro same
    exact ⟨c, same, postdominates_refl c, notStrict⟩
  · rintro ⟨n, same, dom, _⟩
    by_cases eq : n = c
    · rw [same, eq]
    · exact absurd ⟨dom, eq⟩ (alone n)

theorem target_one_up {B c d : BlockId} (reachC : ReachesExit F.Edge c)
    (imm : ImmediatelyPostDominates F.Edge d c)
    (notStrict : ¬ StrictlyPostDominates F.Edge c B) (b : Option BlockId) :
    (b = some c ∨ Target F B d b) ↔ Target F B c b := by
  constructor
  · rintro (same | ⟨n, same, dom, free⟩)
    · exact ⟨c, same, postdominates_refl c, notStrict⟩
    · exact ⟨n, same, postdominates_trans dom imm.1.1, free⟩
  · rintro ⟨n, same, dom, free⟩
    by_cases eq : n = c
    · exact Or.inl (by rw [same, eq])
    · exact Or.inr ⟨n, same, (strict_through_immediate reachC imm).mp ⟨dom, eq⟩, free⟩

/-- The walk from c inserts exactly the blocks that post-dominate c without
    strictly post-dominating B. The induction is on the chain above c; it carries
    that every strict post-dominator of B is still above. -/
theorem climbed_iff (tree : t.Correct F) {B : BlockId} {BNode : DomTreeNode}
    (nodeB : t.getNode B = some BNode) (x : DomTreeNode) :
    ∀ c, t.getNode c = some x →
      (∀ e, StrictlyPostDominates F.Edge e B → PostDominates F.Edge e c) →
      ∀ b, b ∈ climbed BNode.getIDom x (some c) ↔ Target F B c b := by
  have reachB := node_reaches tree nodeB
  induction x with
  | root block =>
    intro c nodeC above b
    unfold climbed
    split
    · rename_i stop
      obtain ⟨imm, _⟩ := tree.idom nodeB stop (tree.block nodeC)
      simp [no_target_at_stop reachB imm b]
    · rename_i going
      rw [List.mem_singleton]
      exact target_at_root (tree.top nodeC rfl).1
        (inserted_not_strict tree nodeB nodeC above going) b
  | child block m ih =>
    intro c nodeC above b
    unfold climbed
    split
    · rename_i stop
      obtain ⟨imm, _⟩ := tree.idom nodeB stop (tree.block nodeC)
      simp [no_target_at_stop reachB imm b]
    · rename_i going
      have notStrict := inserted_not_strict tree nodeB nodeC above going
      rw [List.mem_cons]
      cases blockM : m.getBlock with
      | none =>
        have stops := virtual_root_stops tree nodeB nodeC above going rfl blockM
        obtain ⟨top, alone⟩ := tree.virtual nodeC rfl blockM
        rw [eq_root_of_virtual blockM top] at stops ⊢
        simp only [climbed, stops, if_true, List.not_mem_nil, or_false]
        exact target_at_root alone notStrict b
      | some d =>
        obtain ⟨imm, nodeD⟩ := tree.idom nodeC rfl blockM
        have aboveD : ∀ e, StrictlyPostDominates F.Edge e B → PostDominates F.Edge e d := by
          intro e strict
          exact imm.2 e ⟨above e strict, fun same => notStrict (same ▸ strict)⟩
        rw [ih d nodeD aboveD b]
        exact target_one_up (node_reaches tree nodeC) imm notStrict b

theorem exit_block (inside : F.SuccessorsLocal) {b : BlockId} (path : ReachesExit F.Edge b)
    (inF : ∃ B ∈ F.blocks, B.id = b) :
    ∃ e, (∃ B ∈ F.blocks, B.id = e) ∧ Exit F.Edge e := by
  induction path with
  | exit stop => exact ⟨_, inF, stop⟩
  | step edge _ ih =>
    obtain ⟨B, hB, _, hc⟩ := edge
    exact ih (inside B hB _ hc)

theorem idom_of_edge (tree : t.Correct F) (inside : F.SuccessorsLocal) {b c : BlockId}
    {n : DomTreeNode} (node : t.getNode b = some n) (edge : F.Edge b c) :
    n.getIDom ≠ none := by
  intro isRoot
  obtain ⟨inF, path⟩ := (tree.node_iff b).mp ⟨n, node⟩
  obtain ⟨e, eInF, stop⟩ := exit_block inside path inF
  obtain ⟨m, nodeE⟩ := (tree.node_iff e).mpr ⟨eInF, .exit stop⟩
  refine (tree.top node isRoot).2 e m nodeE (.exit ?_ stop)
  intro same
  exact stop c (same ▸ edge)

theorem visitSuccessor_connected (tree : t.Correct F) (inside : F.SuccessorsLocal)
    {B N : BlockId} (edge : F.Edge B N) {g g' : Graph}
    (run : visitSuccessor t B g N = some g') (a b : Option BlockId) :
    g'.Connected a b ↔ g.Connected a b ∨ a = some B ∧ Target F B N b := by
  unfold visitSuccessor at run
  split at run
  · simp at run
  · rename_i BNode nodeB
    split at run
    · rename_i NNode nodeN
      have above : ∀ e, StrictlyPostDominates F.Edge e B → PostDominates F.Edge e N :=
        fun e strict => postdominates_next strict.1 strict.2.symm edge
      rw [← Option.some.inj run, climb_connected, climbed_iff tree nodeB NNode N nodeN above]
    · split at run
      · rename_i isRoot
        exact absurd isRoot (idom_of_edge tree inside nodeB edge)
      · simp at run

theorem visitSuccessor_total {B N : BlockId} (g : Graph)
    (nodeB : ∃ n, t.getNode B = some n) (nodeN : ∃ n, t.getNode N = some n) :
    ∃ g', visitSuccessor t B g N = some g' := by
  obtain ⟨n, hn⟩ := nodeB
  obtain ⟨m, hm⟩ := nodeN
  exact ⟨_, by unfold visitSuccessor; rw [hn, hm]⟩

theorem addEntryEdge_connected {g : Graph} {B : BasicBlock} {a b : Option BlockId} :
    (addEntryEdge g B).Connected a b ↔ g.Connected a b ∨
      (a = none ∧ b = some B.id ∧ ∀ x, ¬ g.Connected x (some B.id)) := by
  unfold addEntryEdge
  split
  · rename_i empty
    have free := DirectedGraph.pred_empty.mp empty
    rw [DirectedGraph.connected_insert, or_comm]
    simp only [free, not_false_eq_true, implies_true, and_true]
  · rename_i full
    have taken : ¬ ∀ x, ¬ g.Connected x (some B.id) :=
      fun free => full (DirectedGraph.pred_empty.mpr free)
    simp only [taken, and_false, or_false]

theorem addEntryEdges_connected (blocks : List BasicBlock) {g : Graph} {a b : Option BlockId} :
    (blocks.foldl addEntryEdge g).Connected a b ↔ g.Connected a b ∨
      (a = none ∧ ∃ B ∈ blocks, b = some B.id ∧ ∀ x, ¬ g.Connected x (some B.id)) := by
  induction blocks generalizing g with
  | nil => simp
  | cons B blocks ih =>
    rw [List.foldl_cons, ih, addEntryEdge_connected]
    constructor
    · rintro ((old | ⟨ha, hb, free⟩) | ⟨ha, C, hC, hb, free⟩)
      · exact Or.inl old
      · exact Or.inr ⟨ha, B, by simp, hb, free⟩
      · exact Or.inr ⟨ha, C, by simp [hC], hb,
          fun x conn => free x (addEntryEdge_connected.mpr (Or.inl conn))⟩
    · rintro (old | ⟨ha, C, hC, hb, free⟩)
      · exact Or.inl (Or.inl old)
      · by_cases same : C.id = B.id
        · rw [same] at hb free
          exact Or.inl (Or.inr ⟨ha, hb, free⟩)
        · have hC' : C ∈ blocks := by
            rcases List.mem_cons.mp hC with eq | later
            · exact absurd (by rw [eq]) same
            · exact later
          refine Or.inr ⟨ha, C, hC', hb, fun x conn => ?_⟩
          rcases addEntryEdge_connected.mp conn with old | ⟨_, eq, _⟩
          · exact free x old
          · exact same (Option.some.inj eq)

/-- The edges that a CDG computed on F alone has. -/
inductive ControlEdge (F : Function) : Option BlockId → Option BlockId → Prop where
  | dep {n b : BlockId} (depends : DependsOn F.Edge n b) : ControlEdge F (some b) (some n)
  | entry {B : BasicBlock} (inF : B ∈ F.blocks) (free : ∀ x, ¬ DependsOn F.Edge B.id x) :
      ControlEdge F none (some B.id)

theorem edgeWalk_connected (tree : t.Correct F) (inside : F.SuccessorsLocal) {g g' : Graph}
    (run : F.blocks.foldlM (fun g B => B.successors.foldlM (visitSuccessor t B.id) g) g =
      some g') (a b : Option BlockId) :
    g'.Connected a b ↔ g.Connected a b ∨
      ∃ x n, a = some x ∧ b = some n ∧ DependsOn F.Edge n x := by
  have perBlock := foldlM_adds (R := fun g : Graph => g.Connected a b)
    (E := fun B : BasicBlock => ∃ N ∈ B.successors, a = some B.id ∧ Target F B.id N b)
    (fun B hB g g' inner => foldlM_adds
      (fun N hN g g' one => visitSuccessor_connected tree inside ⟨B, hB, rfl, hN⟩ one a b)
      inner) run
  rw [perBlock]
  refine or_congr_right ⟨?_, ?_⟩
  · rintro ⟨B, hB, N, hN, ha, n, hb, dom, notStrict⟩
    exact ⟨B.id, n, ha, hb, N, ⟨B, hB, rfl, hN⟩, dom, notStrict⟩
  · rintro ⟨x, n, ha, hb, N, ⟨B, hB, rfl, hN⟩, dom, notStrict⟩
    exact ⟨B, hB, N, hN, ha, n, hb, dom, notStrict⟩

theorem runOnFunction_connected (tree : t.Correct F) (inside : F.SuccessorsLocal)
    {g g' : Graph}
    (own : ∀ B ∈ F.blocks, ∀ x, g.Connected x (some B.id) → ControlEdge F x (some B.id))
    (run : runOnFunction t F g = some g') (a b : Option BlockId) :
    g'.Connected a b ↔ g.Connected a b ∨ ControlEdge F a b := by
  obtain ⟨walked, walk, rest⟩ := bind_some run
  have same : F.blocks.foldl addEntryEdge walked = g' := by simpa using rest
  have conn := edgeWalk_connected tree inside walk
  rw [← same, addEntryEdges_connected, conn]
  constructor
  · rintro ((old | ⟨x, n, rfl, rfl, dep⟩) | ⟨rfl, B, hB, rfl, free⟩)
    · exact Or.inl old
    · exact Or.inr (.dep dep)
    · exact Or.inr (.entry hB fun x dep =>
        free (some x) ((conn _ _).mpr (Or.inr ⟨x, B.id, rfl, rfl, dep⟩)))
  · rintro (old | edge)
    · exact Or.inl (Or.inl old)
    · cases edge with
      | @dep n x dep => exact Or.inl (Or.inr ⟨x, n, rfl, rfl, dep⟩)
      | @entry B hB free =>
        by_cases already : g.Connected none (some B.id)
        · exact Or.inl (Or.inl already)
        refine Or.inr ⟨rfl, B, hB, rfl, fun x edge => ?_⟩
        rcases (conn _ _).mp edge with old | ⟨y, n, _, hn, dep⟩
        · have mine := own B hB x old
          generalize target : some B.id = z at mine
          cases mine with
          | dep dep => exact free _ (Option.some.inj target ▸ dep)
          | entry => exact already old
        · exact free y (Option.some.inj hn ▸ dep)

theorem runOnFunction_pred {g g' : Graph} (run : runOnFunction t F g = some g') {B : BasicBlock}
    (hB : B ∈ F.blocks) : ∃ x, g'.Connected x (some B.id) := by
  obtain ⟨walked, _, rest⟩ := bind_some run
  have same : F.blocks.foldl addEntryEdge walked = g' := by simpa using rest
  rw [← same]
  by_cases free : ∀ x, ¬ walked.Connected x (some B.id)
  · exact ⟨none, (addEntryEdges_connected _).mpr (Or.inr ⟨rfl, B, hB, rfl, free⟩)⟩
  · push Not at free
    obtain ⟨x, edge⟩ := free
    exact ⟨x, (addEntryEdges_connected _).mpr (Or.inl edge)⟩

theorem runOnFunction_alone (tree : t.Correct F) (inside : F.SuccessorsLocal) {g : Graph}
    (run : runOnFunction t F {} = some g) (a b : Option BlockId) :
    g.Connected a b ↔ ControlEdge F a b := by
  have empty : ∀ a b, ¬ ({} : Graph).Connected a b := DirectedGraph.not_connected_empty
  rw [runOnFunction_connected tree inside (fun B _ x edge => absurd edge (empty x _)) run]
  simp [empty]

theorem reachesExit_of_run (tree : t.Correct F) {g g' : Graph}
    (run : runOnFunction t F g = some g') (b : BlockId) : ReachesExit F.Edge b := by
  by_contra stuck
  have noNode : t.getNode b = none := by
    cases node : t.getNode b with
    | none => rfl
    | some n => exact absurd (node_reaches tree node) stuck
  have notExit : ¬ Exit F.Edge b := fun stop => stuck (.exit stop)
  unfold Exit at notExit
  push Not at notExit
  obtain ⟨c, C, hC, same, hc⟩ := notExit
  obtain ⟨walked, walk, _⟩ := bind_some run
  obtain ⟨s, s', inner⟩ := foldlM_each walk hC
  obtain ⟨u, u', one⟩ := foldlM_each inner hc
  simp [visitSuccessor, same, noNode] at one

theorem runOnFunction_total (tree : t.Correct F) (inside : F.SuccessorsLocal)
    (exits : ∀ B ∈ F.blocks, ReachesExit F.Edge B.id) (g : Graph) :
    ∃ g', runOnFunction t F g = some g' := by
  have node : ∀ b, (∃ B ∈ F.blocks, B.id = b) → ∃ n, t.getNode b = some n := by
    rintro b ⟨B, hB, rfl⟩
    exact (tree.node_iff B.id).mpr ⟨⟨B, hB, rfl⟩, exits B hB⟩
  obtain ⟨walked, walk, _⟩ := foldlM_total (P := fun _ : Graph => True) (l := F.blocks)
    (f := fun g B => B.successors.foldlM (visitSuccessor t B.id) g) (s := g)
    (fun B hB g _ => foldlM_total
      (fun N hN g _ => by
        obtain ⟨g', one⟩ := visitSuccessor_total g (node B.id ⟨B, hB, rfl⟩)
          (node N (inside B hB N hN))
        exact ⟨g', one, trivial⟩) trivial) trivial
  exact ⟨F.blocks.foldl addEntryEdge walked, by unfold runOnFunction; rw [walk]; rfl⟩

theorem path_inside (inside : F.SuccessorsLocal) {b c : BlockId}
    (path : Relation.ReflTransGen F.Edge b c) (start : ∃ B ∈ F.blocks, B.id = b) :
    ∃ C ∈ F.blocks, C.id = c := by
  induction path with
  | refl => exact start
  | tail _ edge _ =>
    obtain ⟨B, hB, _, hc⟩ := edge
    exact inside B hB _ hc

theorem controlEdge_inside (inside : F.SuccessorsLocal) (exits : ∀ b, ReachesExit F.Edge b)
    {a b : Option BlockId} (edge : ControlEdge F a b) :
    (∃ B ∈ F.blocks, b = some B.id) ∧ ∀ x, a = some x → ∃ C ∈ F.blocks, x = C.id := by
  cases edge with
  | @entry B inF _ =>
    exact ⟨⟨B, inF, rfl⟩, fun x same => by simp at same⟩
  | @dep n b depends =>
    obtain ⟨s, ⟨B, hB, same, hs⟩, dom, _⟩ := depends
    obtain ⟨C, hC, eq⟩ := path_inside inside (reaches_of_postdominates (exits s) dom)
      (inside B hB s hs)
    exact ⟨⟨C, hC, by rw [eq]⟩, fun x key => ⟨B, hB, by rw [same, Option.some.inj key]⟩⟩

theorem runOnFunction_inside (tree : t.Correct F) (inside : F.SuccessorsLocal) {g g' : Graph}
    (run : runOnFunction t F g = some g') {a b : Option BlockId} (edge : g'.Connected a b) :
    g.Connected a b ∨ ((∃ B ∈ F.blocks, b = some B.id) ∧
      ∀ x, a = some x → ∃ C ∈ F.blocks, x = C.id) := by
  have exits := reachesExit_of_run tree run
  obtain ⟨walked, walk, rest⟩ := bind_some run
  have same : F.blocks.foldl addEntryEdge walked = g' := by simpa using rest
  rw [← same, addEntryEdges_connected, edgeWalk_connected tree inside walk] at edge
  rcases edge with (old | ⟨x, n, rfl, rfl, dep⟩) | ⟨rfl, B, hB, target, _⟩
  · exact .inl old
  · exact .inr (controlEdge_inside inside exits (.dep dep))
  · exact .inr ⟨⟨B, hB, target⟩, fun x none => by cases none⟩

end CDG
end ProgramSlicer
