import ProgramSlicer.Andersen.CycleDetection
import ProgramSlicer.Andersen.SparseBitVectorGraph

/-!
`runOnGraph` on a graph that may get new nodes while it is gone through. If no insertion
makes the iterator invalid, everything that the nodes lead to is finished at the end.
-/
namespace ProgramSlicer.Andersen.CycleDetector
open Components FoldRules GrowingWalk
variable {N σ : Type} [DecidableEq N] {c : CycleDetector N σ}

/-- What every call of the client does to its state, from the state before to that after. -/
structure Respects (c : CycleDetector N σ) (R : σ → σ → Prop) : Prop where
  refl : ∀ s, R s s
  trans : ∀ {s s' s''}, R s s' → R s' s'' → R s s''
  getRep : ∀ x s, R s (c.getRep x s).2
  onCycle : ∀ m r s s', c.processNodeOnCycle m r s = some s' → R s s'
  atRep : ∀ r s s', c.processCycleRepNode r s = some s' → R s s'

/-- A fact about a node that the client sees to when it says what an index stands for. -/
structure Provides (c : CycleDetector N σ) (R : σ → σ → Prop) (P : N → σ → Prop) : Prop where
  keeps : ∀ {s s' n}, R s s' → P n s → P n s'
  getRep : ∀ x s, P (c.getRep x s).1 (c.getRep x s).2

/-- From one state of the search to a later one. -/
structure Leads (R : σ → σ → Prop) (P : N → σ → Prop) (s s' : Search N σ) : Prop where
  client : R s.client s'.client
  seen : ∀ n, Seen s n → Seen s' n
  provided : (∀ n, Seen s n → P n s.client) → ∀ n, Seen s' n → P n s'.client

section Leads
variable {R : σ → σ → Prop} {P : N → σ → Prop} {s s' s'' : Search N σ}

omit [DecidableEq N] in
theorem Leads.trans (respects : Respects c R) (one : Leads R P s s') (two : Leads R P s' s'') :
    Leads R P s s'' :=
  ⟨respects.trans one.client two.client, fun n h => two.seen n (one.seen n h),
    fun start => two.provided (one.provided start)⟩

omit [DecidableEq N] in
theorem leads_client (provides : Provides c R P) (same : s'.dfsNum = s.dfsNum)
    (moves : R s.client s'.client) : Leads R P s s' := by
  have seen : ∀ n, Seen s' n ↔ Seen s n := by
    intro n
    unfold Seen
    rw [same]
  exact ⟨moves, fun n => (seen n).mpr,
    fun start n h => provides.keeps moves (start n ((seen n).mp h))⟩

theorem leads_lower (respects : Respects c R) (node succRep : N) (seen : Seen s node) :
    Leads R P s (lower node succRep s) := by
  have client : (lower node succRep s).client = s.client := by
    unfold lower
    split <;> rfl
  refine ⟨client ▸ respects.refl _, fun n h => (seen_lower seen).mpr h, ?_⟩
  rw [client]
  exact fun start n h => start n ((seen_lower seen).mp h)

omit [DecidableEq N] in
theorem enter_leads (respects : Respects c R) (provides : Provides c R P)
    {f : N → Search N σ → Option (Search N σ)}
    (visits : ∀ n s s', f n s = some s' → P n s.client → Leads R P s s') {x w : N}
    (run : enter c f x s = some (w, s')) : Leads R P s s' := by
  let client := (c.getRep x s.client).2
  let rep := (c.getRep x s.client).1
  have moved : Leads R P s { s with client } :=
    leads_client provides rfl (respects.getRep x s.client)
  have entered : enter c f x s = if (s.dfsNum rep).isSome then some (rep, { s with client })
      else (f rep { s with client }).map fun s => (rep, s) := rfl
  rw [entered] at run
  by_cases seen : (s.dfsNum rep).isSome = true
  · rw [if_pos seen] at run
    obtain ⟨rfl, rfl⟩ := Prod.mk.inj (Option.some.inj run)
    exact moved
  · rw [if_neg seen] at run
    obtain ⟨s₁, visited, same⟩ := Option.map_eq_some_iff.mp run
    obtain ⟨rfl, rfl⟩ := Prod.mk.inj same
    exact moved.trans respects (visits rep _ s₁ visited (provides.getRep x s.client))

omit [DecidableEq N] in
theorem popCycle_leads (respects : Respects c R) (provides : Provides c R P) {node : N}
    {myTimeStamp : Nat} : ∀ {stack : List N} {s s' : Search N σ},
      popCycle c node myTimeStamp stack s = some s' → Leads R P s s'
  | [], s, s', run => Option.some.inj run ▸ leads_client provides rfl (respects.refl _)
  | cycleNode :: rest, s, s', run => by
    unfold popCycle at run
    by_cases older : dfsNumOf s cycleNode < myTimeStamp
    · rw [if_pos older] at run
      exact Option.some.inj run ▸ leads_client provides rfl (respects.refl _)
    · rw [if_neg older] at run
      obtain ⟨client, called, popped⟩ := bind_some run
      have first : Leads R P s { s with
          client, inComponent := cycleNode :: s.inComponent, sccStack := rest } :=
        leads_client provides rfl (respects.onCycle _ _ _ _ called)
      exact first.trans respects (popCycle_leads respects provides popped)

theorem visit_leads (respects : Respects c R) (provides : Provides c R P) (fuel : Nat) :
    ∀ (node : N) (s s' : Search N σ), visit c fuel node s = some s' → P node s.client →
      Leads R P s s' := by
  induction fuel with
  | zero => exact fun _ _ _ run => nomatch run
  | succ fuel ih =>
    intro node s s' run own
    by_cases seen : Seen s node
    · have revisited : visit c (fuel + 1) node s = none := if_pos seen
      rw [revisited] at run
      cases run
    rw [visit_succ fuel node s seen] at run
    obtain ⟨s₁, looped, closed⟩ := bind_some run
    have marked : Leads R P s (mark node s) := by
      refine ⟨respects.refl _, fun n h => seen_mark.mpr (.inr h), fun start n h => ?_⟩
      rcases seen_mark.mp h with same | before
      · exact same ▸ own
      · exact start n before
    have loop : Leads R P (mark node s) s₁ ∧ Seen s₁ node := by
      refine foldlM_keeps (P := fun t => Leads R P (mark node s) t ∧ Seen t node) ?_ looped
        ⟨leads_client provides rfl (respects.refl _), seen_mark.mpr (.inl rfl)⟩
      intro x _ t t' edge ⟨before, here⟩
      obtain ⟨⟨w, t₁⟩, entered, lowered⟩ := bind_some edge
      have entering := enter_leads respects provides ih entered
      have here₁ := entering.seen node here
      refine Option.some.inj lowered ▸ ⟨(before.trans respects entering).trans respects
        (leads_lower respects node w here₁), (seen_lower here₁).mpr here₁⟩
    refine (marked.trans respects loop.1).trans respects ?_
    by_cases lowered : dfsNumOf s₁ node ≠ s.timestamp
    · rw [if_pos lowered] at closed
      exact Option.some.inj closed ▸ leads_client provides rfl (respects.refl _)
    · rw [if_neg lowered] at closed
      obtain ⟨s₂, popped, finished⟩ := bind_some closed
      obtain ⟨client, called, same⟩ := bind_some finished
      have finishing : Leads R P s₁ { s₁ with inComponent := node :: s₁.inComponent } :=
        leads_client provides rfl (respects.refl _)
      have root : Leads R P s₂ { s₂ with client } :=
        leads_client provides rfl (respects.atRep _ _ _ called)
      exact Option.some.inj same ▸ (finishing.trans respects
        (popCycle_leads respects provides popped)).trans respects root

end Leads

section Run
variable {R : σ → σ → Prop} {P : N → σ → Prop} {carrier : Finset N} {raw : N → List N}
  {rep : N → N} {Good : Set N → σ → Prop}

/-- The graph of a client, as it may be while the search is under way. -/
structure Grows (graph : NodeIterator N σ) (R : σ → σ → Prop) (carrier : Finset N) (rep : N → N)
    (Good : Set N → σ → Prop) (fuel : Nat) : Prop where
  size : ∀ done s, Good done s → (graph.nodes s).length ≤ fuel
  members : ∀ done s, Good done s → ∀ x ∈ graph.nodes s, rep x ∈ carrier
  order : ∀ s s', R s s' → graph.epoch s' = graph.epoch s →
    (graph.nodes s).Sublist (graph.nodes s')

structure Waiting (R : σ → σ → Prop) (P : N → σ → Prop) (carrier : Finset N) (raw : N → List N)
    (rep : N → N) (Good : Set N → σ → Prop) (client : σ) (s : Search N σ) : Prop where
  idle : Idle carrier raw rep Good s
  client : R client s.client
  provided : ∀ n, Seen s n → P n s.client

theorem waiting_turn (law : Lawful c carrier raw rep Good) (respects : Respects c R)
    (provides : Provides c R P) {fuel : Nat} (enough : carrier.card ≤ fuel) {client : σ}
    {s : Search N σ} (waiting : Waiting R P carrier raw rep Good client s) {n : N}
    (member : rep n ∈ carrier) :
    ∃ s', (enter c (visit c fuel) n s).map Prod.snd = some s' ∧
      Waiting R P carrier raw rep Good client s' ∧ R s.client s'.client ∧
      rep n ∈ s'.inComponent ∧ ∀ m ∈ s.inComponent, m ∈ s'.inComponent := by
  obtain ⟨w, s', run, idle, done, keeps⟩ := enter_idle law waiting.idle member enough
  have leads := enter_leads respects provides (visit_leads respects provides fuel) run
  refine ⟨s', by rw [run]; rfl, ?_, leads.client, done, keeps⟩
  exact ⟨idle, respects.trans waiting.client leads.client, leads.provided waiting.provided⟩

def Invalidated (graph : NodeIterator N σ) (R : σ → σ → Prop) (Good : Set N → σ → Prop)
    (client : σ) : Prop :=
  ∃ done s s', R client s ∧ R s s' ∧ Good done s' ∧ graph.epoch s' ≠ graph.epoch s

/-- The loop over the nodes of the graph: all that they lead to is finished, unless the
    iterator becomes invalid. -/
theorem runOnGraph_spec (law : Lawful c carrier raw rep Good) (respects : Respects c R)
    (provides : Provides c R P) {graph : NodeIterator N σ} {fuel : Nat}
    (grows : Grows graph R carrier rep Good fuel) (enough : carrier.card ≤ fuel) {client : σ}
    (good : Good ∅ client) :
    (∃ s, runOnGraph c graph fuel client = some s ∧
      Waiting R P carrier raw rep Good client s ∧ graph.epoch s.client = graph.epoch client ∧
      ∀ x ∈ graph.nodes client, rep x ∈ s.inComponent) ∨
    (runOnGraph c graph fuel client = none ∧ Invalidated graph R Good client) := by
  let nodes := fun s : Search N σ => graph.nodes s.client
  let epoch := fun s : Search N σ => graph.epoch s.client
  let turn := fun (n : N) (s : Search N σ) => (enter c (visit c fuel) n s).map Prod.snd
  have turns : Turns nodes epoch turn (Waiting R P carrier raw rep Good client)
      fun n s => rep n ∈ s.inComponent := by
    refine ⟨fun s => graph.nodup s.client, fun s n waiting here => ?_⟩
    obtain ⟨_, _, inv⟩ := waiting.idle
    obtain ⟨s', run, waiting', step, done, keeps⟩ := waiting_turn law respects provides enough
      waiting (grows.members _ _ inv.good n here)
    exact ⟨s', run, waiting', grows.order _ _ step, done, fun m => keeps _⟩
  have bound : ∀ s, Waiting R P carrier raw rep Good client s → (nodes s).length ≤ fuel := by
    rintro s ⟨⟨_, _, inv⟩, _, _⟩
    exact grows.size _ _ inv.good
  have start : Waiting R P carrier raw rep Good client (Search.start client) :=
    ⟨idle_start good, respects.refl _, fun n seen => by simp [Seen, Search.start] at seen⟩
  have loop : runOnGraph c graph fuel client =
      walk nodes epoch turn fuel (nodes (Search.start client)).head? (Search.start client) >>=
        fun s => if s.sccStack ≠ [] then none else some s := rfl
  rcases walk_all turns bound start with ⟨s, run, waiting, all⟩ | ⟨run, broken⟩
  · have valid : epoch s = epoch (Search.start client) := walk_epoch run
    refine .inl ⟨s, ?_, waiting, valid, all⟩
    rw [loop, run]
    exact if_neg (not_not.mpr waiting.idle.1)
  · refine .inr ⟨?_, ?_⟩
    · rw [loop, run]
      rfl
    · obtain ⟨s, n, s', waiting, turned, waiting', invalid⟩ := broken
      obtain ⟨⟨w, s₁⟩, entered, rfl⟩ := Option.map_eq_some_iff.mp turned
      have leads := enter_leads respects provides (visit_leads respects provides fuel) entered
      obtain ⟨_, _, inv⟩ := waiting'.idle
      exact ⟨_, _, _, waiting.client, leads.client, inv.good, invalid⟩

end Run

/-! ### A graph in a hash table -/

section Table
open HashTable SparseBitVectorGraph

/-- The graph of a client, which gets new nodes by `getRep` alone. -/
structure TableClient (c : CycleDetector NodeIndex σ) (graphOf : σ → SparseBitVectorGraph)
    (edges : List (NodeIndex × NodeIndex)) (Good : Set NodeIndex → σ → Prop) : Prop where
  getRep : ∀ x s, Table.Extends (graphOf s).graph (graphOf (c.getRep x s).2).graph ∧
    (c.getRep x s).1 ∈ (graphOf (c.getRep x s).2).nodes
  onCycle : ∀ m r s s', c.processNodeOnCycle m r s = some s' →
    Table.Extends (graphOf s).graph (graphOf s').graph
  atRep : ∀ r s s', c.processCycleRepNode r s = some s' →
    Table.Extends (graphOf s).graph (graphOf s').graph
  inside : ∀ done s, Good done s → ∀ v ∈ (graphOf s).nodes, v ∈ endpoints edges

variable {c : CycleDetector NodeIndex σ} {graphOf : σ → SparseBitVectorGraph}
  {edges : List (NodeIndex × NodeIndex)} {Good : Set NodeIndex → σ → Prop}

theorem TableClient.respects (table : TableClient c graphOf edges Good) :
    Respects c fun s s' => Table.Extends (graphOf s).graph (graphOf s').graph where
  refl _ := Table.extends_refl _
  trans := Table.Extends.trans
  getRep x s := (table.getRep x s).1
  onCycle := table.onCycle
  atRep := table.atRep

theorem TableClient.provides (table : TableClient c graphOf edges Good) :
    Provides c (fun s s' => Table.Extends (graphOf s).graph (graphOf s').graph)
      fun n s => n ∈ (graphOf s).nodes where
  keeps grown here := grown.subset _ here
  getRep x s := (table.getRep x s).2

theorem TableClient.length_le (table : TableClient c graphOf edges Good) {done : Set NodeIndex}
    {s : σ} (good : Good done s) : (graphOf s).nodes.length ≤ (endpoints edges).length :=
  (graphOf s).graph.nodup.length_le_of_subset (table.inside done s good)

def successors (policy : Policy NodeIndex) (edges : List (NodeIndex × NodeIndex)) (v : NodeIndex) :
    List NodeIndex :=
  ((ofEdges policy edges).succs v).bits

theorem mem_successors {policy : Policy NodeIndex} {v w : NodeIndex} :
    w ∈ successors policy edges v ↔ (v, w) ∈ edges := by
  rw [successors, SparseBitVector.mem_bits, mem_succs_ofEdges]

theorem edge_successors (policy : Policy NodeIndex) (edges : List (NodeIndex × NodeIndex)) :
    Edge (successors policy edges) (fun n => n) = fun v w => (v, w) ∈ edges := by
  funext v w
  apply propext
  rw [← @mem_successors _ policy]
  simp [Edge]

/-- The search over a graph that has just been built finishes every node with an edge, unless
    the table rehashes while it is gone through. -/
theorem runOnGraph_table {policy : Policy NodeIndex}
    (law : Lawful c (endpoints edges).toFinset (successors policy edges) (fun n => n) Good)
    (table : TableClient c graphOf edges Good) {fuel : Nat}
    (enough : (endpoints edges).length ≤ fuel) {client : σ}
    (built : graphOf client = ofEdges policy edges) (good : Good ∅ client) :
    (Steady policy edges ∧ ∃ s, runOnGraph c (nodeIterator graphOf) fuel client = some s ∧
      Idle (endpoints edges).toFinset (successors policy edges) (fun n => n) Good s ∧
      ∀ v w, (v, w) ∈ edges → v ∈ s.inComponent) ∨
    (¬ Steady policy edges ∧ runOnGraph c (nodeIterator graphOf) fuel client = none) := by
  have same : (graphOf client).graph.policy = policy := by rw [built, policy_ofEdges]
  have size : (graphOf client).graph.keys.length = (sources edges).length := by
    rw [built]
    exact length_ofEdges policy edges
  have grows : Grows (nodeIterator graphOf)
      (fun s s' => Table.Extends (graphOf s).graph (graphOf s').graph) (endpoints edges).toFinset
      (fun n => n) Good fuel := by
    constructor
    case size => exact fun done s good => (table.length_le good).trans enough
    case members =>
      exact fun done s good x here => List.mem_toFinset.mpr (table.inside done s good x here)
    case order => exact fun s s' grown valid => grown.kept (grown.rehashes_iff.mp valid)
  rcases runOnGraph_spec law table.respects table.provides grows
    ((List.toFinset_card_le _).trans enough) good with
    ⟨s, run, waiting, unmoved, all⟩ | ⟨run, broken⟩
  · left
    obtain ⟨_, τ, inv⟩ := waiting.idle
    have finished : ∀ v w, (v, w) ∈ edges → v ∈ s.inComponent := by
      intro v w edge
      apply all v
      show v ∈ (graphOf client).nodes
      rw [built]
      exact mem_nodes_ofEdges.mpr ⟨w, edge⟩
    have present : ∀ v ∈ endpoints edges, v ∈ (graphOf s.client).nodes := by
      intro v here
      apply waiting.provided v
      apply (inv.known v).mpr
      left
      obtain ⟨w, edge | edge⟩ := mem_endpoints.mp here
      · exact finished v w edge
      · exact inv.done_edges w (finished w v edge) v (edge_successors policy edges ▸ edge)
    have fits := (List.nodup_dedup _).length_le_of_subset present
    have calm := waiting.client.rehashes_iff.mp unmoved
    rw [same, size] at calm
    exact ⟨fun n low high => calm n low (Nat.lt_of_lt_of_le high fits), s, run, waiting.idle,
      finished⟩
  · right
    refine ⟨fun steady => ?_, run⟩
    obtain ⟨done, s, s', before, step, good, moved⟩ := broken
    apply moved
    apply step.rehashes_iff.mpr
    rw [before.policy, same]
    have larger := before.length_le
    rw [size] at larger
    intro n low high
    exact steady n (larger.trans low) (Nat.lt_of_lt_of_le high (table.length_le good))

end Table
end ProgramSlicer.Andersen.CycleDetector
