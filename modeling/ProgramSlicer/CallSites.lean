import ProgramSlicer.AccumulatedControl

/-!
Step 2 of `SDG::runOnModule` after a completed step 1: which call instructions it
can connect. It reads the node maps of step 1, so the first half is about what
they hold: every instruction has a node, a function has an entry node with a value
exactly if one of its blocks hangs below ENTRY.
-/
namespace ProgramSlicer
open FoldRules ControlDependence

namespace NodeMap
variable {K : Type} [DecidableEq K]

theorem find_insert (m : NodeMap K) (k j : K) (node : SDGNode) :
    (m.insert k node).find j = if m.find j = none ∧ j = k then some node else m.find j := by
  unfold insert
  by_cases same : j = k
  · subst same
    cases found : m.find j with
    | some old => simp [found]
    | none => simp [find]
  · have other : ¬ k = j := fun eq => same eq.symm
    simp only [same, and_false, if_false]
    split
    · rfl
    · simp [find, other]

def Kept (m m' : NodeMap K) : Prop := ∀ k node, m.find k = some node → m'.find k = some node

theorem kept_insert (m : NodeMap K) (k : K) (node : SDGNode) : Kept m (m.insert k node) := by
  intro j old found
  rw [find_insert, found]
  simp

theorem kept_trans {m n k : NodeMap K} (first : Kept m n) (second : Kept n k) : Kept m k :=
  fun j node found => second j node (first j node found)

def Valued (m : NodeMap K) : Prop := ∀ x ∈ m, x.2.value.isSome

theorem valued_insert {m : NodeMap K} (valued : Valued m) (k : K) {node : SDGNode}
    (value : node.value.isSome) : Valued (m.insert k node) := by
  intro x mem
  rcases mem_insert mem with rfl | old
  · exact value
  · exact valued x old

theorem hasValue_of_found {m : NodeMap K} (valued : Valued m) {k : K}
    (found : (m.find k).isSome) : SDG.hasValue m k = true := by
  obtain ⟨node, found⟩ := Option.isSome_iff_exists.mp found
  unfold SDG.hasValue
  rw [found]
  exact valued _ (mem_of_find found)

end NodeMap

/-- LLVM's verifier: nothing branches to the first block of a function. -/
def Module.EntriesFirst (M : Module) : Prop :=
  ∀ F ∈ M.functions, ∀ first ∈ F.blocks.head?, ∀ B ∈ F.blocks, first.id ∉ B.successors

instance (M : Module) : Decidable M.EntriesFirst :=
  inferInstanceAs (Decidable (∀ F ∈ M.functions, ∀ first ∈ F.blocks.head?, ∀ B ∈ F.blocks,
    first.id ∉ B.successors))

namespace SDG
variable {A : Analyses} {M : Module} {s : SDG}

section InstNodes

theorem controlNodes_valued {cdg : CDG.Graph} {l : List (Option BlockId)} {s' : SDG}
    (run : l.foldlM (controlNode M cdg) s = some s') (valued : s.instNodeMap.Valued) :
    s'.instNodeMap.Valued := by
  have block : ∀ src D (t : SDG), t.instNodeMap.Valued →
      (controlBlock src D t).instNodeMap.Valued := fun src D t h =>
    foldl_keeps (P := fun u : SDG => u.instNodeMap.Valued)
      (fun I _ u old => NodeMap.valued_insert old I.id rfl) h
  refine controlNodes_keep (P := fun t : SDG => t.instNodeMap.Valued) ?_ run valued
  intro D _ pred t t' one h
  cases pred with
  | none =>
    rw [controlPred_entry one]
    exact block _ D _ h
  | some S =>
    obtain ⟨B, T, _, _, rfl⟩ := controlPred_block one
    exact block _ D _ (NodeMap.valued_insert h T.id rfl)

theorem stepOne_valued {F : Function} {s' : SDG} (valued : s.instNodeMap.Valued)
    (run : stepOne A M s F = some s') : s'.instNodeMap.Valued := by
  rcases stepOne_cases run with ⟨_, rfl⟩ | ⟨_, cdg, t, _, nodes, rfl⟩
  · exact valued
  · rw [calleeAux_instNodeMap]
    exact controlNodes_valued nodes valued

end InstNodes

section EntryNodes

/-- What a walk over a block graph does to the entry map: entries stay, and a new one
    has a value and belongs to a function with a block below ENTRY. -/
structure EntriesAdded (M : Module) (g : CDG.Graph) (m m' : NodeMap FuncId) : Prop where
  kept : m.Kept m'
  added : ∀ f node, m'.find f = some node → m.find f = some node ∨
    (node.value.isSome ∧ ∃ D ∈ M.blocks, D.parent = f ∧ g.Connected none (some D.id))

theorem entriesAdded_refl {g : CDG.Graph} (m : NodeMap FuncId) : EntriesAdded M g m m :=
  ⟨fun _ _ found => found, fun _ _ found => Or.inl found⟩

theorem entriesAdded_trans {g : CDG.Graph} {m n k : NodeMap FuncId}
    (first : EntriesAdded M g m n) (second : EntriesAdded M g n k) : EntriesAdded M g m k :=
  ⟨NodeMap.kept_trans first.kept second.kept,
    fun f node found => (second.added f node found).elim (first.added f node) Or.inr⟩

theorem controlBlock_entryNodeMap (src : NodePtr) (D : BasicBlock) (s : SDG) :
    (controlBlock src D s).entryNodeMap = s.entryNodeMap := by
  refine foldl_keeps (P := fun u : SDG => u.entryNodeMap = s.entryNodeMap) ?_ rfl
  exact fun I _ u same => same

theorem controlPred_entries {g : CDG.Graph} {D : BasicBlock} (hD : D ∈ M.blocks)
    {pred : Option BlockId} (conn : g.Connected pred (some D.id)) {s' : SDG}
    (run : controlPred M D s pred = some s') :
    EntriesAdded M g s.entryNodeMap s'.entryNodeMap ∧
      (pred = none → (s'.entryNodeMap.find D.parent).isSome) := by
  cases pred with
  | none =>
    rw [controlPred_entry run, controlBlock_entryNodeMap]
    refine ⟨⟨NodeMap.kept_insert _ _ _, fun f node found => ?_⟩, fun _ => ?_⟩
    · rw [NodeMap.find_insert] at found
      split at found
      · rename_i new
        exact Or.inr ⟨Option.some.inj found ▸ rfl, D, hD, new.2.symm, conn⟩
      · exact Or.inl found
    · rw [NodeMap.find_insert]
      split
      · rfl
      · rename_i old
        simpa [Option.isSome_iff_ne_none] using old
  | some S =>
    obtain ⟨B, T, _, _, rfl⟩ := controlPred_block run
    rw [controlBlock_entryNodeMap]
    exact ⟨entriesAdded_refl _, fun none => by cases none⟩

theorem controlNode_entries {g : CDG.Graph} {n : Option BlockId} {s' : SDG}
    (run : controlNode M g s n = some s') :
    EntriesAdded M g s.entryNodeMap s'.entryNodeMap ∧
      ∀ D ∈ M.blocks, n = some D.id → g.Connected none (some D.id) →
        (s'.entryNodeMap.find D.parent).isSome := by
  rcases controlNode_cases run with ⟨rfl, rfl⟩ | ⟨D, hD, rfl, preds⟩
  · exact ⟨entriesAdded_refl _, fun D _ same => by cases same⟩
  · have conn : ∀ pred ∈ (g.getPredSet (some D.id)).map Prod.fst, g.Connected pred (some D.id) :=
      fun pred mem => DirectedGraph.pred_keys.mp mem
    constructor
    · exact foldlM_keeps (P := fun u : SDG => EntriesAdded M g s.entryNodeMap u.entryNodeMap)
        (fun pred mem u u' one h =>
          entriesAdded_trans h (controlPred_entries hD (conn pred mem) one).1)
        preds (entriesAdded_refl _)
    · intro C hC same edge
      obtain rfl : D = C := block_eq hD hC (Option.some.inj same)
      refine foldlM_establishes (P := fun u : SDG => (u.entryNodeMap.find D.parent).isSome)
        (fun pred mem u u' one found => ?_) (DirectedGraph.pred_keys.mpr edge)
        (fun u u' one => (controlPred_entries hD edge one).2 rfl) preds
      obtain ⟨node, found⟩ := Option.isSome_iff_exists.mp found
      rw [(controlPred_entries hD (conn pred mem) one).1.kept _ _ found]
      rfl

theorem controlNodes_entries {g : CDG.Graph} (listed : g.NodesListed) {s' : SDG}
    (run : g.getNodeSet.foldlM (controlNode M g) s = some s') :
    EntriesAdded M g s.entryNodeMap s'.entryNodeMap ∧
      ∀ D ∈ M.blocks, g.Connected none (some D.id) →
        (s'.entryNodeMap.find D.parent).isSome := by
  constructor
  · exact foldlM_keeps (P := fun u : SDG => EntriesAdded M g s.entryNodeMap u.entryNodeMap)
      (fun n _ u u' one h => entriesAdded_trans h (controlNode_entries one).1)
      run (entriesAdded_refl _)
  · intro D hD edge
    refine foldlM_establishes (f := controlNode M g)
      (P := fun u : SDG => (u.entryNodeMap.find D.parent).isSome)
      (fun n _ u u' one found => ?_) (listed _ _ edge).2
      (fun u u' one => (controlNode_entries one).2 D hD rfl edge) run
    obtain ⟨node, found⟩ := Option.isSome_iff_exists.mp found
    rw [(controlNode_entries one).1.kept _ _ found]
    rfl

theorem calleeAux_entryNodeMap (F : Function) (s : SDG) :
    (calleeAux F s).entryNodeMap = s.entryNodeMap.index F.id := by
  have inputs : ∀ t : SDG, (F.args.foldl (calleeInput F.id) t).entryNodeMap = t.entryNodeMap := by
    intro t
    refine foldl_keeps (P := fun u : SDG => u.entryNodeMap = t.entryNodeMap) ?_ rfl
    exact fun a _ u same => same
  exact inputs _

def HasFreeBlock (F : Function) : Prop := ∃ B ∈ F.blocks, ∀ x, ¬ DependsOn F.Edge B.id x

/-- The entry map after step 1 has been run on the functions of `done`. -/
structure Entered (M : Module) (done : List Function) (s : SDG) : Prop where
  cdg_listed : s.cdg.NodesListed
  conn : ∀ a b, s.cdg.Connected a b ↔ ∃ G ∈ done, CDG.ControlEdge G a b
  exits : ∀ G ∈ done, ∀ b, ReachesExit G.Edge b
  waiting : ∀ F ∈ M.functions, F ∉ done → s.entryNodeMap.find F.id = none
  entered : ∀ F ∈ done, F.isDeclaration = false →
    (hasValue s.entryNodeMap F.id = true ↔ HasFreeBlock F)

theorem entered_start (M : Module) : Entered M [] {} where
  cdg_listed := DirectedGraph.nodesListed_empty
  conn a b := by simp [DirectedGraph.not_connected_empty]
  exits := by simp
  waiting F _ _ := rfl
  entered := by simp

theorem hasValue_iff {K : Type} [DecidableEq K] {m : NodeMap K} {k : K} :
    hasValue m k = true ↔ ∃ node, m.find k = some node ∧ node.value.isSome := by
  unfold hasValue
  cases m.find k <;> simp

theorem owner_of_entry_edge {done : List Function} (doneIn : ∀ G ∈ done, G ∈ M.functions)
    {g : CDG.Graph} (conn : ∀ a b, g.Connected a b ↔ ∃ G ∈ done, CDG.ControlEdge G a b)
    {F : Function} (hF : F ∈ M.functions) {D : BasicBlock} (hD : D ∈ M.blocks)
    (parent : D.parent = F.id) (edge : g.Connected none (some D.id)) :
    F ∈ done ∧ HasFreeBlock F := by
  obtain ⟨G, hG, edge⟩ := (conn _ _).mp edge
  generalize target : some D.id = y at edge
  cases edge with
  | @entry B inG free =>
    have hGM := doneIn G hG
    obtain rfl : D = B := block_eq hD (mem_blocks.mpr ⟨G, hGM, inG⟩) (Option.some.inj target)
    obtain rfl : F = G := function_eq hF hGM (parent.symm.trans (M.parent_eq G hGM D inG))
    exact ⟨hG, D, inG, free⟩

theorem find_index_other {m : NodeMap FuncId} {f k : FuncId} (other : k ≠ f) :
    (m.index f).find k = m.find k := by
  unfold NodeMap.index
  rw [NodeMap.find_insert]
  simp [other]

section Walked
variable {done : List Function} {g : CDG.Graph} {m m' : NodeMap FuncId}
  (doneIn : ∀ G ∈ done, G ∈ M.functions)
  (conn : ∀ a b, g.Connected a b ↔ ∃ G ∈ done, CDG.ControlEdge G a b)
  (walked : EntriesAdded M g m m') {F : Function} (hF : F ∈ M.functions)
include doneIn conn walked hF

theorem entry_cases {node : SDGNode} (found : m'.find F.id = some node) :
    m.find F.id = some node ∨ (node.value.isSome ∧ F ∈ done ∧ HasFreeBlock F) := by
  rcases walked.added _ _ found with old | ⟨value, D, hD, parent, edge⟩
  · exact .inl old
  · exact .inr ⟨value, owner_of_entry_edge doneIn conn hF hD parent edge⟩

theorem entered_here (here : F ∈ done) (absent : m.find F.id = none)
    (complete : ∀ D ∈ M.blocks, g.Connected none (some D.id) → (m'.find D.parent).isSome) :
    hasValue (m'.index F.id) F.id = true ↔ HasFreeBlock F := by
  rw [hasValue_iff]
  constructor
  · intro ⟨node, found, value⟩
    by_contra notFree
    have none : m'.find F.id = none := by
      by_contra present
      obtain ⟨other, known⟩ := Option.ne_none_iff_exists'.mp present
      rcases entry_cases doneIn conn walked hF known with old | ⟨_, _, free⟩
      · rw [absent] at old
        cases old
      · exact notFree free
    unfold NodeMap.index at found
    rw [NodeMap.find_insert, if_pos ⟨none, rfl⟩] at found
    rw [← Option.some.inj found] at value
    cases value
  · intro ⟨B, hB, free⟩
    have hBM : B ∈ M.blocks := mem_blocks.mpr ⟨F, hF, hB⟩
    have edge : g.Connected none (some B.id) := (conn _ _).mpr ⟨F, here, .entry hB free⟩
    have found := complete B hBM edge
    rw [M.parent_eq F hF B hB] at found
    obtain ⟨node, found⟩ := Option.isSome_iff_exists.mp found
    refine ⟨node, NodeMap.kept_insert _ _ _ _ _ found, ?_⟩
    rcases entry_cases doneIn conn walked hF found with old | ⟨value, _⟩
    · rw [absent] at old
      cases old
    · exact value

theorem entered_earlier (before : hasValue m F.id = true ↔ HasFreeBlock F) :
    hasValue m' F.id = true ↔ HasFreeBlock F := by
  rw [← before, hasValue_iff, hasValue_iff]
  constructor
  · intro ⟨node, found, value⟩
    rcases entry_cases doneIn conn walked hF found with old | ⟨_, _, free⟩
    · exact ⟨node, old, value⟩
    · exact hasValue_iff.mp (before.mpr free)
  · intro ⟨node, found, value⟩
    exact ⟨node, walked.kept _ _ found, value⟩

end Walked

theorem stepOne_entered {done : List Function} (correct : A.Correct M) (verified : M.Verified)
    {F : Function} (hF : F ∈ M.functions) (doneIn : ∀ G ∈ done, G ∈ M.functions)
    (fresh : F ∉ done) (before : Entered M done s) {s' : SDG} (run : stepOne A M s F = some s') :
    Entered M (done ++ [F]) s' := by
  have exitsF := reachesExit_of_stepOne (correct F hF) run
  have conn := stepOne_controlEdges (correct F hF) (verified.successor_local F hF)
    (fun G hG B hB x edge =>
      controlEdge_own verified hF (doneIn G hG) (before.exits G hG) hB edge) before.conn run
  have exits : ∀ G ∈ done ++ [F], ∀ b, ReachesExit G.Edge b := by
    intro G hG
    rcases List.mem_append.mp hG with early | last
    · exact before.exits G early
    · rw [List.mem_singleton.mp last]
      exact exitsF
  have listIn : ∀ G ∈ done ++ [F], G ∈ M.functions := by
    intro G hG
    rcases List.mem_append.mp hG with early | last
    · exact doneIn G early
    · exact List.mem_singleton.mp last ▸ hF
  rcases stepOne_cases run with ⟨declared, rfl⟩ | ⟨defined, cdg, t, runF, nodes, same⟩
  · refine ⟨before.cdg_listed, conn, exits, fun G hG off => ?_, fun G hG defined => ?_⟩
    · exact before.waiting G hG fun early => off (List.mem_append_left _ early)
    · rcases List.mem_append.mp hG with early | last
      · exact before.entered G early defined
      · rw [List.mem_singleton.mp last] at defined
        simp [declared] at defined
  · have cdgEq : s'.cdg = cdg := by
      rcases stepOne_cdg run with ⟨declared, _⟩ | other
      · rw [defined] at declared
        cases declared
      · exact Option.some.inj (other.symm.trans runF)
    have listed := (CDG.runOnFunction_grows runF).listed before.cdg_listed
    rw [cdgEq] at conn
    obtain ⟨walked, complete⟩ := controlNodes_entries listed nodes
    have map : s'.entryNodeMap = t.entryNodeMap.index F.id := by
      rw [same, calleeAux_entryNodeMap]
    have unmoved : ∀ G ∈ M.functions, G ≠ F →
        s'.entryNodeMap.find G.id = t.entryNodeMap.find G.id := by
      intro G hG other
      rw [map, find_index_other (fun key => other (function_eq hG hF key))]
    refine ⟨cdgEq ▸ listed, cdgEq ▸ conn, exits, fun G hG off => ?_, fun G hG definedG => ?_⟩
    · -- a function still to come has no edge in the block graph
      have notDone : G ∉ done := fun early => off (List.mem_append_left _ early)
      have other : G ≠ F := fun eq => off (List.mem_append_right _ (by simp [eq]))
      rw [unmoved G hG other]
      by_contra present
      obtain ⟨node, found⟩ := Option.ne_none_iff_exists'.mp present
      rcases entry_cases listIn conn walked hG found with old | ⟨_, done, _⟩
      · rw [show s.entryNodeMap.find G.id = none from before.waiting G hG notDone] at old
        cases old
      · exact off done
    · by_cases isF : G = F
      · rw [isF, map]
        exact entered_here listIn conn walked hF (by simp) (before.waiting F hF fresh) complete
      · have early : G ∈ done := by
          rcases List.mem_append.mp hG with early | last
          · exact early
          · exact absurd (List.mem_singleton.mp last) isF
        have value : hasValue s'.entryNodeMap G.id = hasValue t.entryNodeMap G.id := by
          unfold hasValue
          rw [unmoved G (doneIn G early) isF]
        rw [value]
        exact entered_earlier listIn conn walked (doneIn G early) (before.entered G early definedG)

theorem stepsOne_entered (correct : A.Correct M) (verified : M.Verified)
    {todo : List Function} (done : List Function) (split : done ++ todo = M.functions)
    (before : Entered M done s) {s' : SDG} (run : todo.foldlM (stepOne A M) s = some s') :
    Entered M M.functions s' := by
  induction todo generalizing done s with
  | nil =>
    have same : s = s' := by simpa using run
    rw [← split, List.append_nil, ← same]
    exact before
  | cons F todo ih =>
    rw [List.foldlM_cons] at run
    obtain ⟨t, first, rest⟩ := bind_some run
    have hF : F ∈ M.functions := by simp [← split]
    have doneIn : ∀ G ∈ done, G ∈ M.functions := fun G hG => by simp [← split, hG]
    have fresh : F ∉ done := by
      have nodup := M.func_nodup.of_map
      rw [← split] at nodup
      intro again
      exact List.disjoint_of_nodup_append nodup again (List.mem_cons_self ..)
    exact ih (done ++ [F]) (by simpa using split)
      (stepOne_entered correct verified hF doneIn fresh before first) rest

end EntryNodes

section Calls

/-- What step 2 reads of the maps that step 1 has filled, and leaves as it is. -/
structure NodesReady (M : Module) (s : SDG) : Prop where
  inst : ∀ I ∈ M.insts, hasValue s.instNodeMap I.id = true
  entry : ∀ F ∈ M.functions, F.isDeclaration = false →
    (hasValue s.entryNodeMap F.id = true ↔ HasFreeBlock F)

theorem nodesReady_of_same {s' : SDG} (ready : NodesReady M s) (same : SameMaps s s') :
    NodesReady M s' :=
  ⟨same.inst ▸ ready.inst, same.entry ▸ ready.entry⟩

theorem stepsOne_ready (correct : A.Correct M) (verified : M.Verified)
    (run : M.functions.foldlM (stepOne A M) {} = some s) : NodesReady M s := by
  have entered := stepsOne_entered correct verified [] rfl (entered_start M) run
  have keeps : ∀ F ∈ M.functions, ∀ t t', stepOne A M t F = some t' →
      (t.cdg.NodesListed ∧ t.instNodeMap.Valued) → (t'.cdg.NodesListed ∧ t'.instNodeMap.Valued) := by
    intro F _ t t' one ⟨listed, valued⟩
    refine ⟨?_, stepOne_valued valued one⟩
    rcases stepOne_cdg one with ⟨_, rfl⟩ | cdgRun
    · exact listed
    · exact (CDG.runOnFunction_grows cdgRun).listed listed
  have start : (({} : SDG).cdg.NodesListed ∧ ({} : SDG).instNodeMap.Valued) :=
    ⟨DirectedGraph.nodesListed_empty, by simp [NodeMap.Valued]⟩
  refine ⟨fun I hI => ?_, entered.entered⟩
  obtain ⟨F, hF, hIF⟩ := mem_module_insts.mp hI
  have valued := (foldlM_keeps keeps run start).2
  refine NodeMap.hasValue_of_found valued ?_
  obtain ⟨before, after, split⟩ := List.append_of_mem hF
  rw [split, List.foldlM_append] at run
  obtain ⟨t, early, late⟩ := bind_some run
  rw [List.foldlM_cons] at late
  obtain ⟨u, one, rest⟩ := bind_some late
  have listed := (foldlM_keeps (fun G hG => keeps G (by simp [split, hG])) early start).1
  have found := (stepOne_found hF listed one).2 I hIF
  have kept : ∀ G ∈ after, ∀ v v', stepOne A M v G = some v' →
      (v.cdg.NodesListed ∧ v.instNodeMap.Valued) ∧ Found I.id v →
      (v'.cdg.NodesListed ∧ v'.instNodeMap.Valued) ∧ Found I.id v' := by
    intro G hG v v' step ⟨shape, old⟩
    have hGM : G ∈ M.functions := by simp [split, hG]
    exact ⟨keeps G hGM v v' step shape, (stepOne_found hGM shape.1 step).1 I.id old⟩
  have shape := keeps F hF t u one
    (foldlM_keeps (fun G hG => keeps G (by simp [split, hG])) early start)
  exact (foldlM_keeps kept rest ⟨shape, found⟩).2

theorem callerInputs_total_iff (ci : InstId) (vs : List Value) (formals : List ArgId) (s : SDG) :
    (∃ s', callerInputs ci vs formals s = some s') ↔ vs.length ≤ formals.length := by
  induction vs generalizing formals s with
  | nil => simp [callerInputs]
  | cons v vs ih =>
    cases formals with
    | nil => simp [callerInputs]
    | cons f formals =>
      unfold callerInputs
      rw [ih]
      simp

/-- A call that step 2 can connect: it names its callee, and where the callee is
    defined there is a formal for each actual. -/
def Connectable (M : Module) (I : Instruction) : Prop :=
  ∃ F ∈ M.functions, I.getCalledFunction = some F.id ∧
    (F.isDeclaration = false → I.argOperands.length ≤ F.args.length)

theorem index_of_hasValue {K : Type} [DecidableEq K] {m : NodeMap K} {k : K}
    (value : hasValue m k = true) : m.index k = m := by
  obtain ⟨node, found, _⟩ := hasValue_iff.mp value
  exact NodeMap.index_of_found (by rw [found]; rfl)

theorem connectCall_total_iff (ready : NodesReady M s) {I : Instruction} (hI : I ∈ M.insts)
    {F : Function} (hF : F ∈ M.functions) (defined : F.isDeclaration = false)
    (free : HasFreeBlock F) :
    (∃ s', connectCall I F s = some s') ↔ I.argOperands.length ≤ F.args.length := by
  have value := (ready.entry F hF defined).mpr free
  rw [← callerInputs_total_iff I.id I.argOperands F.args
    (link { s with entryNodeMap := s.entryNodeMap.index F.id } (.inst I.id) (.entry F.id)
      EdgeAttr.call)]
  unfold connectCall
  simp only [index_of_hasValue (ready.inst I hI), index_of_hasValue value, ready.inst I hI,
    Bool.true_and, value, if_true]
  constructor
  · rintro ⟨s', run⟩
    obtain ⟨t, inputs, _⟩ := bind_some run
    exact ⟨t, inputs⟩
  · rintro ⟨t, inputs⟩
    exact ⟨callerOutput I.id F.id t, by simp [inputs]⟩

theorem stepTwo_total_iff (ready : NodesReady M s)
    (free : ∀ F ∈ M.functions, F.isDeclaration = false → HasFreeBlock F) {I : Instruction}
    (hI : I ∈ M.insts) :
    (∃ s', stepTwo M s I = some s') ↔ (I.opcode = .call → Connectable M I) := by
  unfold stepTwo Connectable
  by_cases isCall : I.opcode = .call
  · simp only [isCall, if_true, true_imp_iff]
    cases callee : I.getCalledFunction with
    | none => simp
    | some f =>
      constructor
      · intro ⟨s', run⟩
        obtain ⟨_, same, rest⟩ := bind_some run
        obtain rfl := Option.some.inj same
        obtain ⟨CF, found, body⟩ := bind_some rest
        obtain ⟨hF, rfl⟩ := function_lookup.mp found
        refine ⟨CF, hF, rfl, fun defined => ?_⟩
        rw [if_neg (by simp [defined])] at body
        exact (connectCall_total_iff ready hI hF defined (free CF hF defined)).mp ⟨s', body⟩
      · intro ⟨F, hF, same, fits⟩
        obtain rfl := Option.some.inj same
        have found := function_lookup.mpr ⟨hF, rfl⟩
        by_cases declared : F.isDeclaration = true
        · exact ⟨s, by simp [found, declared]⟩
        · have defined : F.isDeclaration = false := by simpa using declared
          obtain ⟨s', run⟩ :=
            (connectCall_total_iff ready hI hF defined (free F hF defined)).mpr (fits defined)
          exact ⟨s', by simp [found, defined, run]⟩
  · simp [isCall]

theorem stepTwo_ready (ready : NodesReady M s) {I : Instruction} (hI : I ∈ M.insts) {s' : SDG}
    (run : stepTwo M s I = some s') : NodesReady M s' := by
  rcases stepTwo_cases run with ⟨rfl, _⟩ | ⟨F, _, connected⟩
  · exact ready
  · obtain ⟨_, hasEntry, t, inputs, rfl⟩ := connectCall_cases connected
    have entryIndex := NodeMap.index_of_found (NodeMap.found_of_hasValue hasEntry)
    have actuals := callerInputs_maps inputs
    refine nodesReady_of_same ready ⟨actuals.inst.trans ?_, actuals.entry.trans entryIndex⟩
    exact index_of_hasValue (ready.inst I hI)

theorem hasFreeBlock_of_first (verified : M.Verified) (entries : M.EntriesFirst) {F : Function}
    (hF : F ∈ M.functions) (defined : F.isDeclaration = false)
    (exits : ∀ B ∈ F.blocks, ReachesExit F.Edge B.id) : HasFreeBlock F := by
  cases blocks : F.blocks with
  | nil => simp [Function.isDeclaration, blocks] at defined
  | cons first rest =>
    have member : first ∈ F.blocks := by simp [blocks]
    refine ⟨first, member, ?_⟩
    apply free_of_no_predecessor
    · intro x y edge
      obtain ⟨B, hB, _, hy⟩ := edge
      obtain ⟨C, hC, rfl⟩ := verified.successor_local F hF B hB y hy
      exact exits C hC
    · intro x edge
      obtain ⟨B, hB, _, into⟩ := edge
      exact entries F hF first (by simp [blocks]) B hB into

/-- After a completed step 1, step 2 comes through exactly if it can connect every call. -/
theorem stepsTwo_total_iff (correct : A.Correct M) (verified : M.Verified)
    (first : M.EntriesFirst) (run : M.functions.foldlM (stepOne A M) {} = some s) :
    (∃ s', M.insts.foldlM (stepTwo M) s = some s') ↔
      ∀ I ∈ M.insts, I.opcode = .call → Connectable M I := by
  have exits := (stepsOne_entered correct verified [] rfl (entered_start M) run).exits
  have free : ∀ F ∈ M.functions, F.isDeclaration = false → HasFreeBlock F :=
    fun F hF defined => hasFreeBlock_of_first verified first hF defined fun B _ => exits F hF B.id
  exact foldlM_total_iff (f := stepTwo M) (P := NodesReady M)
    (Q := fun I => I.opcode = .call → Connectable M I)
    (fun _ hI _ ready => stepTwo_total_iff ready free hI)
    (fun _ hI _ _ one ready => stepTwo_ready ready hI one) (stepsOne_ready correct verified run)

end Calls

theorem passedOn_stepTwo : ∃ s, passedOn.functions.foldlM (stepOne blockPerFunction passedOn) {} =
      some s ∧ ∃ s', passedOn.insts.foldlM (stepTwo passedOn) s = some s' := by
  obtain ⟨s, run⟩ := Option.isSome_iff_exists.mp (show (passedOn.functions.foldlM
    (stepOne blockPerFunction passedOn) {}).isSome = true by decide +kernel)
  have connectable : ∀ I ∈ passedOn.insts, I.opcode = .call → Connectable passedOn I := by
    unfold Connectable
    decide
  exact ⟨s, run, (stepsTwo_total_iff (singleBlocks_correct rfl (by decide)) (by decide)
    (by decide) run).mpr connectable⟩

def throughPointer : Module where
  functions := [
    { id := 0
      blocks := [⟨0, 0, [
        { id := 0, opcode := .load, operands := [.other 0] },
        { id := 1, opcode := .call, operands := [.inst 0] },
        { id := 2, opcode := .ret }]⟩] }]
  func_nodup := by decide
  block_nodup := by decide
  inst_nodup := by decide
  arg_nodup := by decide
  parent_eq := by decide

def moreActuals : Module where
  functions := [
    { id := 0
      blocks := [⟨0, 0, [
        { id := 0, opcode := .call, operands := [.other 0, .other 1, .func 1] },
        { id := 1, opcode := .ret }]⟩] },
    { id := 1
      args := [0]
      blocks := [⟨1, 1, [{ id := 2, opcode := .ret }]⟩] }]
  func_nodup := by decide
  block_nodup := by decide
  inst_nodup := by decide
  arg_nodup := by decide
  parent_eq := by decide

/-- Step 1 completes for both; step 2 dereferences a NULL callee in the one and runs
    out of formals in the other. -/
theorem stepsTwo_not_total :
    (throughPointer.Verified ∧ throughPointer.EntriesFirst ∧
      blockPerFunction.Correct throughPointer ∧
      ((throughPointer.functions.foldlM (stepOne blockPerFunction throughPointer) {}).map fun s =>
        throughPointer.insts.foldlM (stepTwo throughPointer) s) = some none) ∧
    (moreActuals.Verified ∧ moreActuals.EntriesFirst ∧ blockPerFunction.Correct moreActuals ∧
      ((moreActuals.functions.foldlM (stepOne blockPerFunction moreActuals) {}).map fun s =>
        moreActuals.insts.foldlM (stepTwo moreActuals) s) = some none) :=
  ⟨⟨by decide, by decide, singleBlocks_correct rfl (by decide), by decide +kernel⟩,
    by decide, by decide, singleBlocks_correct rfl (by decide), by decide +kernel⟩

end SDG
end ProgramSlicer
