import ProgramSlicer.Andersen.CycleDetection
import ProgramSlicer.Andersen.SolverStep

/-!
Whole runs of the solver: the graph it starts from, the cycles that lazy cycle
detection collapses between two passes, and the outer loop. A collapse uses up
a representative, any other pass that goes on uses up a fact.
-/
namespace ProgramSlicer.Andersen
open InclusionConstraints AndersNodeFactory FoldRules

/-! ### The graph at the start -/

def edgeOf (F : AndersNodeFactory) (c : AndersConstraint) :
    Option (ConstraintKind × NodeIndex × NodeIndex) :=
  match c.type with
  | .ADDR_OF => none
  | .LOAD => some (.load, F.getMergeTarget c.src, F.getMergeTarget c.dest)
  | .STORE => some (.store, F.getMergeTarget c.dest, F.getMergeTarget c.src)
  | .COPY => some (.copy, F.getMergeTarget c.src, F.getMergeTarget c.dest)

theorem addConstraint_edges (F : AndersNodeFactory) (g : Graphs) (c : AndersConstraint)
    (k : ConstraintKind) (n e : NodeIndex) :
    e ∈ (addConstraint F g c).constraintGraph.edges k n ↔
      e ∈ g.constraintGraph.edges k n ∨ edgeOf F c = some (k, n, e) := by
  unfold addConstraint edgeOf
  cases c.type with
  | ADDR_OF => simp [Graphs.unionWith]
  | LOAD =>
    refine ConstraintGraph.mem_insertEdge.trans ?_
    simp [eq_comm]
  | STORE =>
    refine ConstraintGraph.mem_insertEdge.trans ?_
    simp [eq_comm]
  | COPY =>
    refine ConstraintGraph.mem_insertEdge.trans ?_
    simp [eq_comm]

theorem addConstraint_pts (F : AndersNodeFactory) (g : Graphs) (c : AndersConstraint)
    (n o : NodeIndex) :
    o ∈ (addConstraint F g c).pts n ↔
      o ∈ g.pts n ∨ (c.type = .ADDR_OF ∧ n = F.getMergeTarget c.dest ∧ o = c.src) := by
  unfold addConstraint
  cases c.type with
  | ADDR_OF =>
    refine Graphs.mem_pts_unionWith.trans ?_
    simp
  | LOAD => simp [Graphs.pts]
  | STORE => simp [Graphs.pts]
  | COPY => simp [Graphs.pts]

section Build
variable {F : AndersNodeFactory} {cs : List AndersConstraint}

theorem mem_edges_build {k : ConstraintKind} {n e : NodeIndex} :
    e ∈ (buildConstraintGraph F cs).constraintGraph.edges k n ↔
      ∃ c ∈ cs, edgeOf F c = some (k, n, e) := by
  unfold buildConstraintGraph
  rw [foldl_adds (R := fun g => e ∈ g.constraintGraph.edges k n)
    (E := fun c => edgeOf F c = some (k, n, e))
    fun c _ g => addConstraint_edges F g c k n e]
  simp [ConstraintGraph.edges, ConstraintGraph.empty]

theorem mem_pts_build {n o : NodeIndex} :
    o ∈ (buildConstraintGraph F cs).pts n ↔
      ∃ d, ⟨.ADDR_OF, d, o⟩ ∈ cs ∧ n = F.getMergeTarget d := by
  unfold buildConstraintGraph
  rw [foldl_adds (R := fun g => o ∈ g.pts n)
    (E := fun c => c.type = .ADDR_OF ∧ n = F.getMergeTarget c.dest ∧ o = c.src)
    fun c _ g => addConstraint_pts F g c n o]
  constructor
  · rintro (none | ⟨⟨type, d, src⟩, hc, rfl, same, rfl⟩)
    · simp [Graphs.pts] at none
    · exact ⟨d, hc, same⟩
  · rintro ⟨d, hc, same⟩
    exact .inr ⟨_, hc, rfl, same, rfl⟩

theorem addConstraint_keeps {g : Graphs} {c : AndersConstraint} {N : Nat}
    (wf : F.WellFormed) (size : F.numNodes = N) (valid : c.dest < N ∧ c.src < N)
    (same : g.nodeFactory = F) (before : g.WellFormed N) :
    (addConstraint F g c).nodeFactory = F ∧ (addConstraint F g c).WellFormed N := by
  have idem := target_idem wf
  have bound : ∀ n, n < N → F.getMergeTarget n < N := by
    intro n hn
    rw [← size] at hn ⊢
    exact target_inside wf hn
  have edges := addConstraint_edges F g c
  have edgeBound : ∀ k n e, edgeOf F c = some (k, n, e) → e < N := by
    intro k n e h
    unfold edgeOf at h
    cases type : c.type <;> simp only [type, Option.some.injEq, Prod.mk.injEq, reduceCtorEq] at h
    · rw [← h.2.2]; exact bound _ valid.1
    · rw [← h.2.2]; exact bound _ valid.1
    · rw [← h.2.2]; exact bound _ valid.2
  have pts := addConstraint_pts F g c
  have insert : ∀ kind src dst, F.getMergeTarget src = src → src < N →
      (g.constraintGraph.insertEdge kind src dst).Indexed F.getMergeTarget ∧
      ∀ n, ((g.constraintGraph.insertEdge kind src dst).graph n).isSome = true → n < N := by
    intro kind src dst root hs
    have indexed := before.indexed
    rw [same] at indexed
    refine ⟨ConstraintGraph.indexed_insertEdge indexed root, ?_⟩
    intro n h
    rcases ConstraintGraph.isSome_put.mp h with here | old
    · exact here ▸ hs
    · exact before.node_valid n old
  have factory : (addConstraint F g c).nodeFactory = F := by
    unfold addConstraint
    cases c.type <;> exact same
  have graph : (addConstraint F g c).constraintGraph.Indexed F.getMergeTarget ∧
      ∀ n, ((addConstraint F g c).constraintGraph.graph n).isSome = true → n < N := by
    unfold addConstraint
    cases c.type with
    | ADDR_OF => exact ⟨same ▸ before.indexed, before.node_valid⟩
    | LOAD => exact insert .load _ _ (idem _) (bound _ valid.2)
    | STORE => exact insert .store _ _ (idem _) (bound _ valid.1)
    | COPY => exact insert .copy _ _ (idem _) (bound _ valid.2)
  refine ⟨factory, ?_⟩
  constructor
  case factory => rw [factory]; exact wf
  case size => rw [factory]; exact size
  case indexed => rw [factory]; exact graph.1
  case node_valid => exact graph.2
  case edge_valid =>
    intro k n e h
    rcases (edges k n e).mp h with old | new
    · exact before.edge_valid k n e old
    · exact edgeBound k n e new
  case entry_root =>
    intro n h
    rw [factory]
    by_cases here : n = F.getMergeTarget c.dest
    · rw [here]
      exact ⟨idem _, bound _ valid.1⟩
    · have old : (g.ptsGraph n).isSome = true := by
        unfold addConstraint at h
        cases type : c.type <;> simp only [type] at h
        · simpa [Graphs.unionWith, here] using h
        · exact h
        · exact h
        · exact h
      have was := before.entry_root n old
      rwa [same] at was
  case pts_valid =>
    intro n o h
    rcases (pts n o).mp h with old | ⟨_, _, new⟩
    · exact before.pts_valid n o old
    · exact new ▸ valid.2

theorem build_wellFormed {N : Nat} (wf : F.WellFormed) (size : F.numNodes = N)
    (valid : ValidConstraints N cs) :
    (buildConstraintGraph F cs).nodeFactory = F ∧ (buildConstraintGraph F cs).WellFormed N := by
  unfold buildConstraintGraph
  apply foldl_keeps (P := fun g : Graphs => g.nodeFactory = F ∧ g.WellFormed N)
  · intro c hc g before
    exact addConstraint_keeps wf size (valid c hc) before.1 before.2
  · refine ⟨rfl, wf, size, ?_, ?_, ?_, ?_, ?_⟩
    · intro n node found
      simp [ConstraintGraph.empty] at found
    · simp [ConstraintGraph.empty]
    · simp [ConstraintGraph.edges, ConstraintGraph.empty]
    · simp
    · simp [Graphs.pts]

/-- What the merges so far have to do with the constraints that are solved. -/
structure Represents (S : System NodeIndex) (F : AndersNodeFactory) (cs : List AndersConstraint) :
    Prop where
  addrOf : ∀ d s, S.addrOf d s → ⟨.ADDR_OF, d, s⟩ ∈ cs
  copy : ∀ d s, S.copy d s → ⟨.COPY, d, s⟩ ∈ cs ∨ F.getMergeTarget d = F.getMergeTarget s
  load : ∀ d s, S.load d s → ⟨.LOAD, d, s⟩ ∈ cs
  store : ∀ d s, S.store d s → ⟨.STORE, d, s⟩ ∈ cs

theorem edge_build_cases {k : ConstraintKind} {n e : NodeIndex}
    (edge : e ∈ (buildConstraintGraph F cs).constraintGraph.edges k n) :
    ∃ d s, (k = .copy ∧ ⟨.COPY, d, s⟩ ∈ cs ∧ n = F.getMergeTarget s ∧ e = F.getMergeTarget d) ∨
      (k = .load ∧ ⟨.LOAD, d, s⟩ ∈ cs ∧ n = F.getMergeTarget s ∧ e = F.getMergeTarget d) ∨
      (k = .store ∧ ⟨.STORE, d, s⟩ ∈ cs ∧ n = F.getMergeTarget d ∧ e = F.getMergeTarget s) := by
  obtain ⟨⟨type, d, s⟩, hc, here⟩ := mem_edges_build.mp edge
  refine ⟨d, s, ?_⟩
  unfold edgeOf at here
  cases type <;> simp only [Option.some.injEq, Prod.mk.injEq, reduceCtorEq] at here
  · exact .inl ⟨here.1.symm, hc, here.2.1.symm, here.2.2.symm⟩
  · exact .inr (.inl ⟨here.1.symm, hc, here.2.1.symm, here.2.2.symm⟩)
  · exact .inr (.inr ⟨here.1.symm, hc, here.2.1.symm, here.2.2.symm⟩)

theorem build_valid {S : System NodeIndex} {N : Nat} (wf : F.WellFormed) (size : F.numNodes = N)
    (valid : ValidConstraints N cs) (solves : Solves (constraintSystem cs) (solution S))
    (rep : ∀ n, solution S (F.getMergeTarget n) = solution S n) :
    Solver.Valid S N ⟨buildConstraintGraph F cs, [], [], []⟩ := by
  obtain ⟨factory, wellFormed⟩ := build_wellFormed wf size valid
  have target : ∀ n, (buildConstraintGraph F cs).nodeFactory.getMergeTarget n =
      F.getMergeTarget n := by
    intro n
    rw [factory]
  refine ⟨wellFormed, ?_, by simp⟩
  constructor
  case rep =>
    intro n
    show solution S ((buildConstraintGraph F cs).nodeFactory.getMergeTarget n) = _
    rw [factory]
    exact rep n
  case pts =>
    intro r o h
    obtain ⟨d, hc, same⟩ := mem_pts_build.mp h
    rw [same, rep]
    exact solves.addrOf d o hc
  case copyTo =>
    rintro r _ ⟨e, edge, rfl⟩
    rw [target]
    obtain ⟨d, s, ⟨_, hc, hn, he⟩ | ⟨kind, _⟩ | ⟨kind, _⟩⟩ := edge_build_cases edge
    · rw [hn, he, rep, rep, rep]
      exact solves.copy d s hc
    · exact ConstraintKind.noConfusion kind
    · exact ConstraintKind.noConfusion kind
  case loadTo =>
    rintro r _ ⟨e, edge, rfl⟩ o pointee
    rw [target]
    obtain ⟨d, s, ⟨kind, _⟩ | ⟨_, hc, hn, he⟩ | ⟨kind, _⟩⟩ := edge_build_cases edge
    · exact ConstraintKind.noConfusion kind
    · rw [hn, rep] at pointee
      rw [he, rep, rep]
      exact solves.load d s hc o pointee
    · exact ConstraintKind.noConfusion kind
  case storeTo =>
    rintro r _ ⟨e, edge, rfl⟩ o pointee
    rw [target]
    obtain ⟨d, s, ⟨kind, _⟩ | ⟨kind, _⟩ | ⟨_, hc, hn, he⟩⟩ := edge_build_cases edge
    · exact ConstraintKind.noConfusion kind
    · exact ConstraintKind.noConfusion kind
    · rw [hn, rep] at pointee
      rw [he, rep, rep]
      exact solves.store d s hc o pointee

theorem build_covers {S : System NodeIndex} {N : Nat} (wf : F.WellFormed) (size : F.numNodes = N)
    (valid : ValidConstraints N cs) (represents : Represents S F cs) :
    (buildConstraintGraph F cs).view.Covers S := by
  have target : ∀ n, (buildConstraintGraph F cs).nodeFactory.getMergeTarget n =
      F.getMergeTarget n := by
    intro n
    rw [(build_wellFormed wf size valid).1]
  let G := (buildConstraintGraph F cs).nodeFactory.getMergeTarget
  have edgeAt : ∀ {k n m c}, c ∈ cs →
      edgeOf F c = some (k, F.getMergeTarget n, F.getMergeTarget m) →
      ∃ e ∈ (buildConstraintGraph F cs).constraintGraph.edges k (G n), G e = G m := by
    intro k n m c hc here
    rw [show G n = F.getMergeTarget n from target n, show G m = F.getMergeTarget m from target m]
    exact ⟨F.getMergeTarget m, mem_edges_build.mpr ⟨c, hc, here⟩,
      (target _).trans (target_idem wf m)⟩
  constructor
  case addrOf =>
    intro d s hc
    exact mem_pts_build.mpr ⟨d, represents.addrOf d s hc, target d⟩
  case copy =>
    intro d s hc
    rcases represents.copy d s hc with listed | same
    · exact .inl (edgeAt listed rfl)
    · exact .inr ((target d).trans (same.trans (target s).symm))
  case load => exact fun d s hc => edgeAt (represents.load d s hc) rfl
  case store => exact fun d s hc => edgeAt (represents.store d s hc) rfl

theorem initial_settled {g : Graphs} {N : Nat} (wf : g.WellFormed N) :
    g.view.Settled {x | x ∈ initialWorkList g} := by
  intro r
  by_cases root : g.nodeFactory.getMergeTarget r = r
  · cases entry : g.ptsGraph r with
    | none =>
      right
      apply Solver.discharged_without_targets
      simp [Graphs.pts, entry]
    | some set =>
      cases node : g.constraintGraph.graph r with
      | none =>
        right
        apply Solver.discharged_without_edges
        simp [ConstraintGraph.edges, node]
      | some found =>
        have inside := (wf.entry_root r (by simp [entry])).2
        have listed : r ∈ initialWorkList g := by
          simp [initialWorkList, wf.size, inside, entry, root, node]
        exact .inl ⟨r, listed, root⟩
  · exact .inr (Graphs.gone_discharged wf root)

end Build

/-! ### Collapsing cycles -/

namespace OnlineCycleDetector
open Components CycleDetector
variable {S : System NodeIndex} {N : Nat} {waiting : Set NodeIndex} {g₀ : Graphs}

/-- Nodes on cycles of copy edges have been merged. -/
inductive Condensed (c₀ : Config NodeIndex) : Config NodeIndex → Prop
  | refl : Condensed c₀ c₀
  | merge {c : Config NodeIndex} {r : NodeIndex} {ms : List NodeIndex} (before : Condensed c₀ c)
      (entered : ∀ m ∈ r :: ms, ∃ v, m ∈ c.copyTo v) : Condensed c₀ (c.map (into r ms))

/-- The graphs after the components of `done` have been collapsed. -/
structure Good (S : System NodeIndex) (N : Nat) (waiting : Set NodeIndex) (g₀ : Graphs)
    (done : Set NodeIndex) (g : Graphs) : Prop where
  wf : g.WellFormed N
  sound : g.view.Sound S
  covers : ∀ T : System NodeIndex, g₀.view.Covers T → g.view.Covers T
  settled : g₀.view.Settled waiting → g.view.Settled waiting
  condensed : Condensed g₀.view g.view
  measure : g.measure N ≤ g₀.measure N
  coarser : ∀ a b, g₀.nodeFactory.getMergeTarget a = g₀.nodeFactory.getMergeTarget b →
    g.nodeFactory.getMergeTarget a = g.nodeFactory.getMergeTarget b
  done_valid : ∀ n ∈ done, n < N
  edges : ∀ v ∉ done, g.constraintGraph.edges .copy v = g₀.constraintGraph.edges .copy v
  open_rep : ∀ x, g₀.nodeFactory.getMergeTarget x ∉ done →
    g.nodeFactory.getMergeTarget x = g₀.nodeFactory.getMergeTarget x
  done_rep : ∀ x, g₀.nodeFactory.getMergeTarget x ∈ done → g.nodeFactory.getMergeTarget x ∈ done

def carrier (N : Nat) (g₀ : Graphs) : Finset NodeIndex :=
  (Finset.range N).filter fun n => g₀.nodeFactory.getMergeTarget n = n

def raw (g₀ : Graphs) (n : NodeIndex) : List NodeIndex := (g₀.constraintGraph.edges .copy n).bits

theorem getOrInsertNode_good {done : Set NodeIndex} {g : Graphs} (good : Good S N waiting g₀ done g)
    {r : NodeIndex} (root : g.nodeFactory.getMergeTarget r = r) (inside : r < N) :
    Good S N waiting g₀ done
      { g with constraintGraph := g.constraintGraph.getOrInsertNode r } := by
  let g' : Graphs := { g with constraintGraph := g.constraintGraph.getOrInsertNode r }
  have edges : ∀ k n, g'.constraintGraph.edges k n = g.constraintGraph.edges k n :=
    fun _ _ => ConstraintGraph.edges_getOrInsertNode r
  have view : g'.view = g.view := by
    simp only [Graphs.view, edges]
    rfl
  have missing : g'.measure N = g.measure N := by
    simp only [Graphs.measure, Graphs.missing, edges]
    rfl
  refine ⟨?_, view ▸ good.sound, fun T h => view ▸ good.covers T h, view ▸ good.settled,
    view ▸ good.condensed, missing ▸ good.measure,
    good.coarser, good.done_valid, fun v h => (edges .copy v).trans (good.edges v h), good.open_rep,
    good.done_rep⟩
  constructor
  case factory => exact good.wf.factory
  case size => exact good.wf.size
  case indexed => exact ConstraintGraph.indexed_getOrInsertNode good.wf.indexed root
  case node_valid =>
    intro n found
    have found' : (({ g with constraintGraph := g.constraintGraph.getOrInsertNode r } :
      Graphs).constraintGraph.graph n).isSome = true := found
    dsimp only at found'
    unfold ConstraintGraph.getOrInsertNode at found'
    split at found'
    · rcases ConstraintGraph.isSome_put.mp found' with here | old
      · exact here ▸ inside
      · exact good.wf.node_valid n old
    · exact good.wf.node_valid n found'
  case edge_valid =>
    intro k n e h
    exact good.wf.edge_valid k n e (edges k n ▸ h)
  case entry_root => exact good.wf.entry_root
  case pts_valid => exact good.wf.pts_valid

theorem collapse_members {g : Graphs} {r : NodeIndex} (hr : r < N)
    (rootR : g.nodeFactory.getMergeTarget r = r) (qs : List NodeIndex) :
    ∀ {ps : List NodeIndex} {g' : Graphs}, g.Partly N r ps g' → (r :: ps ++ qs).Nodup →
      (∀ q ∈ qs, q < N ∧ g.nodeFactory.getMergeTarget q = q) →
      ∃ g'', qs.foldlM (fun s m => detector.processNodeOnCycle m r s) g' = some g'' ∧
        g.Partly N r (ps ++ qs) g'' := by
  induction qs with
  | nil =>
    intro ps g' part _ _
    exact ⟨g', rfl, by simpa using part⟩
  | cons q qs ih =>
    intro ps g' part nodup members
    obtain ⟨hq, rootQ⟩ := members q (by simp)
    have apart : r ≠ q ∧ q ∉ ps := by
      simp only [List.cons_append, List.nodup_cons, List.mem_append, List.mem_cons,
        List.nodup_append] at nodup
      grind
    have itself : ∀ x, g.nodeFactory.getMergeTarget x = x → x ∉ ps →
        g'.nodeFactory.getMergeTarget x = x := by
      intro x root out
      rw [part.rep, root]
      simp [into, out]
    have rootR' : g'.nodeFactory.getMergeTarget r = r := by
      rw [part.rep, rootR]
      simp [into]
    have callback : detector.processNodeOnCycle q r g' = collapseNodes r q g' := by
      show collapseNodes _ _ g' = _
      rw [ConstraintGraph.getNodeIndex_rep part.wf.indexed rootR',
        ConstraintGraph.getNodeIndex_rep part.wf.indexed (itself q rootQ apart.2)]
    obtain ⟨g₁, run, part₁, _⟩ := Graphs.partly_collapse part hr rootR hq rootQ apart.1 apart.2
    obtain ⟨g₂, rest, part₂⟩ := ih part₁ (by simpa using nodup)
      fun x hx => members x (List.mem_cons_of_mem q hx)
    refine ⟨g₂, ?_, by simpa using part₂⟩
    rw [List.foldlM_cons, callback, run]
    exact rest

theorem finish_good {done : Set NodeIndex} {g : Graphs}
    (good : Good S N waiting g₀ done g) {r : NodeIndex} {ms : List NodeIndex}
    (inside : ∀ v ∈ r :: ms, v ∈ carrier N g₀)
    (comp : IsComponent (Edge (raw g₀) g₀.nodeFactory.getMergeTarget) done r ms) :
    ∃ g', process detector r ms g = some g' ∧
      Good S N waiting g₀ (done ∪ {v | v ∈ r :: ms}) g' := by
  have member : ∀ v ∈ r :: ms, v < N ∧ g₀.nodeFactory.getMergeTarget v = v := by
    intro v hv
    have h := Finset.mem_filter.mp (inside v hv)
    exact ⟨Finset.mem_range.mp h.1, h.2⟩
  have root : ∀ v ∈ r :: ms, g.nodeFactory.getMergeTarget v = v := by
    intro v hv
    rw [good.open_rep v ((member v hv).2.symm ▸ comp.fresh v hv)]
    exact (member v hv).2
  -- An edge inside the component is a copy edge of the graph as it is now.
  have edge : ∀ v ∈ r :: ms, ∀ w ∈ r :: ms,
      Edge (raw g₀) g₀.nodeFactory.getMergeTarget v w → w ∈ g.view.copyTo v := by
    rintro v hv w hw ⟨x, hx, rfl⟩
    refine ⟨x, ?_, good.open_rep x (comp.fresh _ hw)⟩
    rw [good.edges v (comp.fresh v hv)]
    exact hx
  have equal : ∀ n, solution S (into r ms n) = solution S n := by
    intro n
    unfold into
    split
    · rename_i hn
      have carry : ∀ a ∈ r :: ms, ∀ b ∈ r :: ms, solution S a ⊆ solution S b := by
        intro a ha b hb o derived
        apply comp.carries (P := fun y => o ∈ solution S y) _ ha hb derived
        exact fun v hv w hw e h => good.sound.copyTo v w (edge v hv w hw e) h
      exact Set.Subset.antisymm (carry r (by simp) n (by simp [hn]))
        (carry n (by simp [hn]) r (by simp))
    · rfl
  have alike : g.view.Settled waiting → (∃ m ∈ r :: ms, g.view.Waits waiting m) ∨
      ∀ m ∈ r :: ms, ∀ m' ∈ r :: ms, g.view.pts m' ⊆ g.view.pts m := by
    intro settled
    by_cases some : ∃ m ∈ r :: ms, g.view.Waits waiting m
    · exact .inl some
    · right
      intro m hm m' hm' o known
      apply comp.carries (P := fun y => o ∈ g.view.pts y) _ hm' hm known
      intro v hv w hw e h
      rcases settled v with waits | done
      · exact absurd ⟨v, hv, waits⟩ some
      · exact done.copy w (edge v hv w hw e) h
  obtain ⟨g', run, part⟩ := collapse_members (member r (by simp)).1 (root r (by simp)) ms
    (Graphs.partly_start good.wf r) (by simpa using comp.nodup) fun q hq =>
      ⟨(member q (by simp [hq])).1, root q (by simp [hq])⟩
  rw [List.nil_append] at part
  refine ⟨g', ?_, ?_⟩
  · unfold process
    rw [run]
    rfl
  · constructor
    case wf => exact part.wf
    case sound => rw [part.view]; exact Config.map_sound good.sound equal
    case covers =>
      intro T before
      rw [part.view]
      exact Config.map_covers _ (good.covers T before)
    case settled =>
      intro before
      have settled := good.settled before
      rw [part.view, ← into_cons_self]
      exact Config.map_settled settled (by simp) (alike settled)
    case condensed =>
      rw [part.view]
      by_cases alone : ms = []
      · have same : into r ms = fun n => n := by
          funext n
          simp [into, alone]
        rw [same, Config.map_id]
        exact good.condensed
      · refine .merge good.condensed fun m hm => ?_
        obtain ⟨v, hv, here⟩ := comp.entered alone hm
        exact ⟨v, edge v hv m hm here⟩
    case measure => exact (Graphs.partly_measure part).trans good.measure
    case coarser =>
      intro a b h
      rw [part.rep, part.rep, good.coarser a b h]
    case done_valid =>
      rintro n (old | new)
      · exact good.done_valid n old
      · exact (member n new).1
    case edges =>
      intro v out
      rw [← good.edges v fun h => out (.inl h)]
      apply part.edges
      · exact fun same => out (.inr (by simp [same]))
      · exact fun h => out (.inr (by simp [h]))
    case open_rep =>
      intro x out
      rw [part.rep, good.open_rep x fun h => out (.inl h)]
      have apart : g₀.nodeFactory.getMergeTarget x ∉ ms :=
        fun h => out (.inr (List.mem_cons_of_mem r h))
      simp [into, apart]
    case done_rep =>
      intro x h
      rw [part.rep]
      have here : g.nodeFactory.getMergeTarget x ∈ done ∪ {v | v ∈ r :: ms} := by
        rcases h with old | new
        · exact .inl (good.done_rep x old)
        · rw [good.open_rep x (comp.fresh _ new)]
          exact .inr new
      unfold into
      split
      · exact .inr (by simp)
      · exact here

theorem lawful (waiting : Set NodeIndex) (wf₀ : g₀.WellFormed N) :
    Lawful detector (carrier N g₀) (raw g₀) g₀.nodeFactory.getMergeTarget
      (Good S N waiting g₀) := by
  have idem := target_idem wf₀.factory
  constructor
  case inside =>
    intro v _ x hx
    have bound := wf₀.edge_valid .copy v x hx
    rw [carrier, Finset.mem_filter, Finset.mem_range]
    refine ⟨?_, idem x⟩
    rw [← wf₀.size] at bound ⊢
    exact target_inside wf₀.factory bound
  case children =>
    intro done g good v _ out
    show (g.constraintGraph.edges .copy v).bits = _
    rw [good.edges v out]
    rfl
  case keeps =>
    intro done g good x hx
    apply getOrInsertNode_good good (target_idem good.wf.factory x)
    by_cases finished : g₀.nodeFactory.getMergeTarget x ∈ done
    · exact good.done_valid _ (good.done_rep x finished)
    · rw [good.open_rep x finished]
      exact Finset.mem_range.mp (Finset.mem_filter.mp hx).1
  case open_rep => exact fun done g good x _ out => good.open_rep x out
  case done_rep => exact fun done g good x _ inDone => good.done_rep x inDone
  case finish => exact fun done g good r ms inside comp => finish_good good inside comp

theorem run_spec (order : HashOrder) (wf₀ : g₀.WellFormed N) (sound : g₀.view.Sound S)
    (waiting : Set NodeIndex) {candidates : List NodeIndex}
    (valid : ∀ n ∈ candidates, n < N) :
    ∃ g, run order candidates g₀ = some g ∧ g.WellFormed N ∧ g.view.Sound S ∧
      (∀ T : System NodeIndex, g₀.view.Covers T → g.view.Covers T) ∧
      (g₀.view.Settled waiting → g.view.Settled waiting) ∧ Condensed g₀.view g.view ∧
      g.measure N ≤ g₀.measure N ∧ ∀ a b, g₀.nodeFactory.getMergeTarget a = g₀.nodeFactory.getMergeTarget b →
        g.nodeFactory.getMergeTarget a = g.nodeFactory.getMergeTarget b := by
  have start : Good S N waiting g₀ ∅ g₀ :=
    ⟨wf₀, sound, fun _ h => h, fun h => h, .refl, Nat.le_refl _, fun _ _ h => h, by simp,
      fun _ _ => rfl, fun _ _ => rfl, by simp⟩
  have enough : (carrier N g₀).card ≤ g₀.nodeFactory.numNodes + 1 := by
    have fits := Finset.card_le_card (Finset.filter_subset
      (fun n => g₀.nodeFactory.getMergeTarget n = n) (Finset.range N))
    rw [Finset.card_range] at fits
    rw [wf₀.size]
    exact fits.trans (Nat.le_succ N)
  have law := lawful (S := S) waiting wf₀
  obtain ⟨s, loop, idle⟩ := foldlM_total (l := order.arrange candidates)
    (P := Idle (carrier N g₀) (raw g₀) g₀.nodeFactory.getMergeTarget (Good S N waiting g₀))
    (fun x hx s idle => runOnNode_spec law idle (by
      have bound := valid x (order.mem_arrange.mp hx)
      rw [carrier, Finset.mem_filter, Finset.mem_range]
      refine ⟨?_, target_idem wf₀.factory x⟩
      rw [← wf₀.size] at bound ⊢
      exact target_inside wf₀.factory bound) enough)
    (idle_start start)
  obtain ⟨_, τ, inv⟩ := idle
  refine ⟨s.client, ?_, inv.good.wf, inv.good.sound, inv.good.covers, inv.good.settled,
    inv.good.condensed, inv.good.measure, inv.good.coarser⟩
  unfold run
  rw [loop]
  rfl

end OnlineCycleDetector

/-! ### The outer loop -/

namespace Solver
variable {S : System NodeIndex} {N : Nat}

theorem detectIfAny_spec (order : HashOrder) (lcd : Bool) {s : Solver} (valid : Valid S N s)
    (waiting : Set NodeIndex) :
    ∃ s', s.detectIfAny order lcd = some s' ∧ Valid S N s' ∧
      (∀ T : System NodeIndex, s.view.Covers T → s'.view.Covers T) ∧
      (s.view.Settled waiting → s'.view.Settled waiting) ∧
      OnlineCycleDetector.Condensed s.view s'.view ∧ s'.measure N ≤ s.measure N ∧
      s'.nextWorkList = s.nextWorkList ∧ (∀ a b, s.rep a = s.rep b → s'.rep a = s'.rep b) ∧
      (lcd = false → s'.nodeFactory = s.nodeFactory) := by
  unfold detectIfAny
  split
  · rename_i enabled
    obtain ⟨g, run, wf, sound, covers, settled, condensed, less, coarser⟩ :=
      OnlineCycleDetector.run_spec order valid.wf valid.sound waiting valid.candidates
    refine ⟨{ s.withGraphs g with cycleCandidates := [] }, ?_, ⟨wf, sound, by simp⟩, covers,
      settled, condensed, less, rfl, coarser, fun off => by simp [off] at enabled⟩
    unfold detectCycles
    rw [run]
    rfl
  · exact ⟨s, rfl, valid, fun _ h => h, fun h => h, .refl, Nat.le_refl _, rfl, fun _ _ h => h,
      fun _ => rfl⟩

theorem iterate_more (order : HashOrder) {hcd lcd : Bool} {collapseMap : DenseMap NodeIndex}
    {fuel : Nat} {curr : AndersWorkList} {s s' : Solver}
    (run : iterate order hcd lcd collapseMap fuel curr s = some s') :
    iterate order hcd lcd collapseMap (fuel + 1) curr s = some s' := by
  induction fuel generalizing curr s with
  | zero => simp [iterate] at run
  | succ fuel ih =>
    rw [iterate] at run ⊢
    split
    · rename_i empty
      rwa [if_pos empty] at run
    · rename_i full
      rw [if_neg full] at run
      obtain ⟨t, detect, later⟩ := bind_some run
      obtain ⟨u, nodes, rest⟩ := bind_some later
      rw [detect, Option.bind_eq_bind, Option.bind_some, nodes, Option.bind_some]
      exact ih rest

section Run
variable {T : System NodeIndex} {order : HashOrder} {hcd lcd : Bool} {F : AndersNodeFactory}
  {collapseMap : DenseMap NodeIndex} {curr₀ : AndersWorkList} {s₀ : Solver}

def CollapsesSafe (order : HashOrder) (hcd lcd : Bool) (collapseMap : DenseMap NodeIndex)
    (curr₀ : AndersWorkList) (s₀ : Solver) : Prop :=
  ∀ q rest s, Reached order hcd lcd collapseMap curr₀ s₀ (q :: rest) s →
    CollapseSafe collapseMap {x | x ∈ rest ∨ x ∈ s.nextWorkList} s (s.rep q)

theorem reached_valid {S : System NodeIndex} {N : Nat}
    (targets : hcd = true → Targets S N collapseMap) (start : Valid S N s₀)
    (covers : s₀.view.Covers T)
    (coarse : ∀ a b, F.getMergeTarget a = F.getMergeTarget b → s₀.rep a = s₀.rep b)
    {curr : AndersWorkList} {s : Solver}
    (reached : Reached order hcd lcd collapseMap curr₀ s₀ curr s) :
    Valid S N s ∧ s.view.Covers T ∧
      ∀ a b, F.getMergeTarget a = F.getMergeTarget b → s.rep a = s.rep b := by
  have detects : ∀ s s' : Solver, Valid S N s → s.view.Covers T →
      (∀ a b, F.getMergeTarget a = F.getMergeTarget b → s.rep a = s.rep b) →
      s.detectIfAny order lcd = some s' → Valid S N s' ∧ s'.view.Covers T ∧
      ∀ a b, F.getMergeTarget a = F.getMergeTarget b → s'.rep a = s'.rep b := by
    intro s s' valid covers coarse found
    obtain ⟨t, again, validT, coversT, _, _, _, _, coarser, _⟩ :=
      detectIfAny_spec order lcd valid ∅
    obtain rfl := Option.some.inj (again.symm.trans found)
    exact ⟨validT, coversT T covers, fun a b h => coarser a b (coarse a b h)⟩
  induction reached with
  | start found => exact detects s₀ _ start covers coarse found
  | @turn q rest s s' _ run ih =>
    obtain ⟨valid, covers, coarse⟩ := ih
    obtain ⟨t, again, validT, turn, _⟩ := processNode_spec lcd targets coarse valid covers q
    obtain rfl := Option.some.inj (again.symm.trans run)
    exact ⟨validT, turn.covers T covers, fun a b h => turn.coarser a b (coarse a b h)⟩
  | @pass s s' _ found ih =>
    obtain ⟨valid, covers, coarse⟩ := ih
    exact detects { s with nextWorkList := [] } s' ⟨valid.wf, valid.sound, valid.candidates⟩
      covers coarse found

structure Between (S T : System NodeIndex) (N : Nat) (F : AndersNodeFactory) (order : HashOrder)
    (hcd lcd : Bool) (collapseMap : DenseMap NodeIndex) (curr₀ : AndersWorkList) (s₀ : Solver)
    (curr : AndersWorkList) (s : Solver) : Prop where
  valid : Valid S N s
  covers : s.view.Covers T
  coarse : ∀ a b, F.getMergeTarget a = F.getMergeTarget b → s.rep a = s.rep b
  empty : s.nextWorkList = []
  reached : ∀ s', s.detectIfAny order lcd = some s' →
    Reached order hcd lcd collapseMap curr₀ s₀ curr s'
  settled : (hcd = true → Loaded T F collapseMap ∧
    CollapsesSafe order hcd lcd collapseMap curr₀ s₀) → s.view.Settled {x | x ∈ curr}

theorem pass_spec (targets : hcd = true → Targets S N collapseMap) {s : Solver}
    {curr : AndersWorkList}
    (between : Between S T N F order hcd lcd collapseMap curr₀ s₀ curr s) :
    ∃ t u, s.detectIfAny order lcd = some t ∧
      curr.foldlM (processNode hcd lcd collapseMap) t = some u ∧
      Between S T N F order hcd lcd collapseMap curr₀ s₀ u.nextWorkList
        { u with nextWorkList := [] } ∧
      (u.nextWorkList = [] ∨ u.measure N < s.measure N) ∧
      (hcd = false → lcd = false → u.nodeFactory = s.nodeFactory) := by
  obtain ⟨t, detect, validT, coversT, settledT, _, less, same, coarser, factory⟩ :=
    detectIfAny_spec order lcd between.valid {x | x ∈ curr}
  rw [between.empty] at same
  obtain ⟨u, nodes, validU, turn, last, settledU⟩ := processNodes_spec lcd targets
    (R := Reached order hcd lcd collapseMap curr₀ s₀) (fun _ _ _ _ before run => .turn before run)
    curr t validT (coversT T between.covers) (fun a b h => coarser a b (between.coarse a b h))
    (between.reached t detect)
  refine ⟨t, u, detect, nodes, ⟨⟨validU.wf, validU.sound, validU.candidates⟩,
    turn.covers T (coversT T between.covers), ?_, rfl, fun s' detected => .pass last detected, ?_⟩,
    ?_, ?_⟩
  · exact fun a b h => turn.coarser a b (coarser a b (between.coarse a b h))
  · intro safe
    apply settledU _ safe
    have both := settledT (between.settled safe)
    simpa [same] using both
  · rcases turn.used with still | fewer
    · exact .inl (still.trans same)
    · exact .inr (fewer.trans_le less)
  · exact fun offH offL => (turn.factory offH).trans (factory offL)

/-- By induction on what is left to be used up. -/
theorem iterate_spec (targets : hcd = true → Targets S N collapseMap) :
    ∀ m s curr, s.measure N ≤ m → Between S T N F order hcd lcd collapseMap curr₀ s₀ curr s →
      ∃ s', iterate order hcd lcd collapseMap (m + 2) curr s = some s' ∧
        Between S T N F order hcd lcd collapseMap curr₀ s₀ [] s' ∧
        (hcd = false → lcd = false → s'.nodeFactory = s.nodeFactory) := by
  intro m
  induction m with
  | zero =>
    intro s curr bound between
    by_cases finished : curr = []
    · exact ⟨s, by rw [iterate, if_pos finished], finished ▸ between, fun _ _ => rfl⟩
    · obtain ⟨t, u, detect, nodes, between', stop | less, factory⟩ := pass_spec targets between
      · refine ⟨{ u with nextWorkList := [] }, ?_, stop ▸ between', factory⟩
        rw [iterate, if_neg finished, detect, Option.bind_eq_bind, Option.bind_some, nodes,
          Option.bind_some, stop]
        rfl
      · omega
  | succ m ih =>
    intro s curr bound between
    by_cases finished : curr = []
    · exact ⟨s, by rw [iterate, if_pos finished], finished ▸ between, fun _ _ => rfl⟩
    · obtain ⟨t, u, detect, nodes, between', more, factory⟩ := pass_spec targets between
      have rest : ∃ s', iterate order hcd lcd collapseMap (m + 2) u.nextWorkList
          { u with nextWorkList := [] } = some s' ∧
          Between S T N F order hcd lcd collapseMap curr₀ s₀ [] s' ∧
          (hcd = false → lcd = false → s'.nodeFactory = u.nodeFactory) := by
        rcases more with stop | less
        · exact ⟨{ u with nextWorkList := [] }, by rw [iterate, if_pos stop], stop ▸ between',
            fun _ _ => rfl⟩
        · have fits : u.measure N ≤ m := by omega
          exact ih { u with nextWorkList := [] } u.nextWorkList fits between'
      obtain ⟨s', run, done, same⟩ := rest
      refine ⟨s', ?_, done, fun offH offL => (same offH offL).trans (factory offH offL)⟩
      rw [iterate, if_neg finished, detect, Option.bind_eq_bind, Option.bind_some, nodes,
        Option.bind_some]
      exact run

end Run

theorem iterate_stable (order : HashOrder) {hcd lcd : Bool} {collapseMap : DenseMap NodeIndex}
    {fuel : Nat} {curr : AndersWorkList} {s s' : Solver}
    (run : iterate order hcd lcd collapseMap fuel curr s = some s') {more : Nat}
    (le : fuel ≤ more) : iterate order hcd lcd collapseMap more curr s = some s' := by
  induction le with
  | refl => exact run
  | step _ ih => exact iterate_more order ih

end Solver

section Solve
variable {F : AndersNodeFactory} {cs : List AndersConstraint} {S T : System NodeIndex} {N : Nat}

def solverStart (F : AndersNodeFactory) (cs : List AndersConstraint) : Solver :=
  ⟨buildConstraintGraph F cs, [], [], []⟩

theorem solveConstraints_run {policy : HashTable.Policy NodeIndex} {order : HashOrder}
    {hcd lcd : Bool} {fuel : Nat}
    {F' : AndersNodeFactory} {collapseMap : DenseMap NodeIndex} {s : Solver}
    (offline : (if hcd then OfflineCycleDetector.run policy order F cs else some (F, .empty)) =
      some (F', collapseMap))
    (run : Solver.iterate order hcd lcd collapseMap fuel
      (initialWorkList (buildConstraintGraph F' cs)) (solverStart F' cs) = some s) :
    solveConstraints policy order hcd lcd fuel F cs = some s.toGraphs := by
  unfold solverStart at run
  unfold solveConstraints
  cases hcd with
  | false =>
    have same : F = F' ∧ DenseMap.empty = collapseMap := by simpa using offline
    obtain ⟨rfl, rfl⟩ := same
    simp [run]
  | true =>
    have found : OfflineCycleDetector.run policy order F cs = some (F', collapseMap) := by
      simpa using offline
    simp [found, run]

theorem solveConstraints_inv {policy : HashTable.Policy NodeIndex} {order : HashOrder}
    {hcd lcd : Bool} {fuel : Nat} {g : Graphs}
    (run : solveConstraints policy order hcd lcd fuel F cs = some g) : ∃ F' collapseMap s,
    (if hcd then OfflineCycleDetector.run policy order F cs else some (F, .empty)) =
      some (F', collapseMap) ∧
    Solver.iterate order hcd lcd collapseMap fuel (initialWorkList (buildConstraintGraph F' cs))
      (solverStart F' cs) = some s ∧ s.toGraphs = g := by
  unfold solveConstraints at run
  cases hcd with
  | false =>
    simp only [Bool.false_eq_true, if_false] at run
    obtain ⟨pair, found, rest⟩ := bind_some run
    obtain ⟨s, iterated, same⟩ := bind_some rest
    rw [← Option.some.inj found] at iterated
    exact ⟨F, .empty, s, by simp, iterated, Option.some.inj same⟩
  | true =>
    simp only [if_true] at run
    obtain ⟨⟨F', collapseMap⟩, found, rest⟩ := bind_some run
    obtain ⟨s, iterated, same⟩ := bind_some rest
    exact ⟨F', collapseMap, s, by simpa using found, iterated, Option.some.inj same⟩

theorem solveConstraints_stable {policy : HashTable.Policy NodeIndex} {order : HashOrder}
    {hcd lcd : Bool} {fuel more : Nat} {g : Graphs}
    (run : solveConstraints policy order hcd lcd fuel F cs = some g) (le : fuel ≤ more) :
    solveConstraints policy order hcd lcd more F cs = some g := by
  obtain ⟨F', collapseMap, s, found, iterated, rfl⟩ := solveConstraints_inv run
  exact solveConstraints_run found (Solver.iterate_stable order iterated le)

theorem solve_between (order : HashOrder) (hcd lcd : Bool) (collapseMap : DenseMap NodeIndex)
    (wf : F.WellFormed) (size : F.numNodes = N) (valid : ValidConstraints N cs)
    (solves : Solves (constraintSystem cs) (solution S))
    (rep : ∀ n, solution S (F.getMergeTarget n) = solution S n) (represents : Represents T F cs)
    (targets : hcd = true → Targets S N collapseMap) :
    ∃ fuel₀ s, (∀ fuel ≥ fuel₀, Solver.iterate order hcd lcd collapseMap fuel
        (initialWorkList (buildConstraintGraph F cs)) (solverStart F cs) = some s) ∧
      Solver.Between S T N F order hcd lcd collapseMap
        (initialWorkList (buildConstraintGraph F cs)) (solverStart F cs) [] s ∧
      (hcd = false → lcd = false → s.nodeFactory = F) := by
  have start := build_valid wf size valid solves rep
  have factory := (build_wellFormed wf size valid).1
  have between : Solver.Between S T N F order hcd lcd collapseMap
      (initialWorkList (buildConstraintGraph F cs)) (solverStart F cs)
      (initialWorkList (buildConstraintGraph F cs)) (solverStart F cs) := by
    refine ⟨start, build_covers wf size valid represents, ?_, rfl,
      fun s' detected => .start detected, fun _ => initial_settled start.wf⟩
    intro a b h
    show (buildConstraintGraph F cs).nodeFactory.getMergeTarget a =
      (buildConstraintGraph F cs).nodeFactory.getMergeTarget b
    rw [factory]
    exact h
  obtain ⟨s, run, done, same⟩ := Solver.iterate_spec targets ((solverStart F cs).measure N)
    (solverStart F cs) (initialWorkList (buildConstraintGraph F cs)) (Nat.le_refl _) between
  exact ⟨_, s, fun fuel le => Solver.iterate_stable order run le, done,
    fun offH offL => (same offH offL).trans factory⟩

/-- It stops, and if every collapse is safe, then every node has the targets that the
    constraints give it. -/
theorem solve_spec (order : HashOrder) (hcd lcd : Bool) (collapseMap : DenseMap NodeIndex)
    (wf : F.WellFormed) (size : F.numNodes = N)
    (valid : ValidConstraints N cs) (solves : Solves (constraintSystem cs) (solution S))
    (rep : ∀ n, solution S (F.getMergeTarget n) = solution S n) (represents : Represents S F cs)
    (targets : hcd = true → Targets S N collapseMap) :
    ∃ fuel₀ s, (∀ fuel ≥ fuel₀, Solver.iterate order hcd lcd collapseMap fuel
        (initialWorkList (buildConstraintGraph F cs)) (solverStart F cs) = some s) ∧
      ((hcd = true → Loaded S F collapseMap ∧ Solver.CollapsesSafe order hcd lcd collapseMap
          (initialWorkList (buildConstraintGraph F cs)) (solverStart F cs)) →
        ∀ n, {o | o ∈ s.pts (s.nodeFactory.getMergeTarget n)} = solution S n) ∧
      (hcd = false → lcd = false → s.nodeFactory = F) := by
  obtain ⟨fuel₀, s, run, done, same⟩ :=
    solve_between order hcd lcd collapseMap wf size valid solves rep represents targets
  refine ⟨fuel₀, s, run, ?_, same⟩
  intro safe
  have discharged : ∀ r, s.view.Discharged r := by
    intro r
    rcases done.settled safe r with ⟨q, none, _⟩ | finished
    · simp at none
    · exact finished
  exact Config.settled_solution done.valid.sound done.covers discharged

/-- It stops whatever the collapses do, and never splits what has been merged. -/
theorem solve_total (order : HashOrder) (hcd lcd : Bool) (collapseMap : DenseMap NodeIndex)
    (wf : F.WellFormed) (size : F.numNodes = N)
    (valid : ValidConstraints N cs)
    (inside : hcd = true → ∀ n t, collapseMap.find n = some t → t < N) :
    ∃ fuel₀ s, (∀ fuel ≥ fuel₀, Solver.iterate order hcd lcd collapseMap fuel
        (initialWorkList (buildConstraintGraph F cs)) (solverStart F cs) = some s) ∧
      ∀ a b, F.getMergeTarget a = F.getMergeTarget b → s.rep a = s.rep b := by
  -- Of the system in which everything points to everything, every state is a part.
  let S : System NodeIndex := ⟨fun _ _ => True, fun _ _ => True, fun _ _ => True, fun _ _ => True⟩
  have all : ∀ n, solution S n = Set.univ :=
    fun n => Set.eq_univ_of_forall fun o => .addrOf trivial
  obtain ⟨fuel₀, s, run, done, _⟩ := solve_between (S := S)
    (T := ⟨fun _ _ => False, fun _ _ => False, fun _ _ => False, fun _ _ => False⟩) order hcd lcd
    collapseMap wf size valid ⟨by simp [all], by simp [all], by simp [all], by simp [all]⟩
    (by simp [all])
    ⟨by simp, by simp, by simp, by simp⟩ fun on => ⟨inside on, by simp [all]⟩
  exact ⟨fuel₀, s, run, done.coarse⟩

end Solve

end ProgramSlicer.Andersen
