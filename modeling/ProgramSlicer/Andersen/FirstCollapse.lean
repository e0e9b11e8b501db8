import ProgramSlicer.Andersen.SolverRun

/-!
Hybrid detection for a pointer that is only given addresses, on a cycle that is entered by
loads through this pointer alone. Until its targets are collapsed no copy edge enters the
pointer or the node they are collapsed into, so that nothing is merged with either; and the
pointer gets no target afterwards.
-/
namespace ProgramSlicer.Andersen
open InclusionConstraints AndersNodeFactory OnlineCycleDetector

/-- Nothing has been merged with `k` or `t`, no copy edge enters them, and nothing but `k`
    loads into `t`. -/
structure Untouched (F : AndersNodeFactory) (k t : NodeIndex) (c : Config NodeIndex) : Prop where
  key : c.rep k = k
  alone : ∀ x, x = k ∨ x = t → ∀ n, c.rep n = c.rep x → F.getMergeTarget n = F.getMergeTarget x
  copy : ∀ x, x = k ∨ x = t → ∀ v, c.rep x ∉ c.copyTo v
  load_key : ∀ v, c.rep k ∉ c.loadTo v
  load_target : ∀ v, c.rep t ∈ c.loadTo v → v = k

section Untouched
variable {F : AndersNodeFactory} {k t : NodeIndex} {c : Config NodeIndex}

theorem untouched_of_same {c' : Config NodeIndex} (before : Untouched F k t c)
    (rep : c'.rep = c.rep) (copyTo : c'.copyTo = c.copyTo) (loadTo : c'.loadTo = c.loadTo) :
    Untouched F k t c' := by
  obtain ⟨key, alone, copy, loadKey, loadTarget⟩ := before
  constructor
  all_goals simp only [rep, copyTo, loadTo]
  · exact key
  · exact alone
  · exact copy
  · exact loadKey
  · exact loadTarget

theorem untouched_map (before : Untouched F k t c) {r : NodeIndex} {ms : List NodeIndex}
    (out : ∀ x, x = k ∨ x = t → c.rep x ∉ r :: ms) : Untouched F k t (c.map (into r ms)) := by
  have fixed : ∀ x, x = k ∨ x = t → into r ms (c.rep x) = c.rep x := fun x hx =>
    if_neg fun mem => out x hx (List.mem_cons_of_mem r mem)
  have only : ∀ x, x = k ∨ x = t → ∀ y, into r ms y = c.rep x → y = c.rep x := by
    intro x hx y same
    unfold into at same
    split at same
    · exact absurd (List.mem_cons.mpr (.inl same.symm)) (out x hx)
    · exact same
  have entered : ∀ (edges : NodeIndex → Set NodeIndex) (x : NodeIndex), x = k ∨ x = t → ∀ v,
      into r ms (c.rep x) ∈ {d | ∃ m, into r ms m = v ∧ ∃ e ∈ edges m, into r ms e = d} →
      ∃ m, into r ms m = v ∧ c.rep x ∈ edges m := by
    rintro edges x hx v ⟨m, here, e, edge, same⟩
    rw [fixed x hx] at same
    exact ⟨m, here, only x hx e same ▸ edge⟩
  constructor
  case key => exact (fixed k (.inl rfl)).trans before.key
  case alone =>
    intro x hx n same
    refine before.alone x hx n (only x hx _ ?_)
    exact same.trans (fixed x hx)
  case copy =>
    intro x hx v edge
    obtain ⟨m, _, old⟩ := entered c.copyTo x hx v edge
    exact before.copy x hx m old
  case load_key =>
    intro v edge
    obtain ⟨m, _, old⟩ := entered c.loadTo k (.inl rfl) v edge
    exact before.load_key m old
  case load_target =>
    intro v edge
    obtain ⟨m, here, old⟩ := entered c.loadTo t (.inr rfl) v edge
    have keyed := fixed k (.inl rfl)
    rw [before.key] at keyed
    rw [← here, before.load_target m old]
    exact keyed

theorem untouched_condensed {c' : Config NodeIndex} (condensed : Condensed c c')
    (before : Untouched F k t c) : Untouched F k t c' := by
  induction condensed with
  | refl => exact before
  | merge _ entered ih =>
    refine untouched_map ih fun x hx mem => ?_
    obtain ⟨v, edge⟩ := entered _ mem
    exact ih.copy x hx v edge

end Untouched

namespace Solver
variable {S T : System NodeIndex} {N : Nat} {s : Solver} {F : AndersNodeFactory}
  {k t : NodeIndex} {collapseMap : DenseMap NodeIndex}

theorem untouched_addCopyEdge (before : Untouched F k t s.view) {src dst : NodeIndex}
    (root : s.rep dst = dst) (other : ∀ x, x = k ∨ x = t → dst ≠ s.rep x) :
    Untouched F k t (s.addCopyEdge src dst).view := by
  have edges : ∀ kind n e, e ∈ (s.addCopyEdge src dst).constraintGraph.edges kind n ↔
      e ∈ s.constraintGraph.edges kind n ∨ (kind = .copy ∧ n = src ∧ e = dst) := by
    intro kind n e
    rw [addCopyEdge_eq]
    exact ConstraintGraph.mem_insertEdge
  have factory : (s.addCopyEdge src dst).nodeFactory = s.nodeFactory := by
    rw [addCopyEdge_eq]
  have loadTo : (s.addCopyEdge src dst).view.loadTo = s.view.loadTo := by
    simp only [Graphs.view, edges, factory, reduceCtorEq, false_and, or_false]
  have rep : (s.addCopyEdge src dst).view.rep = s.view.rep := by
    simp only [Graphs.view, factory]
  constructor
  case key => rw [rep]; exact before.key
  case alone => rw [rep]; exact before.alone
  case load_key => rw [rep, loadTo]; exact before.load_key
  case load_target => rw [rep, loadTo]; exact before.load_target
  case copy =>
    intro x hx v
    rw [rep]
    rintro ⟨e, edge, same⟩
    rw [factory] at same
    rcases (edges .copy v e).mp edge with old | ⟨_, _, new⟩
    · exact before.copy x hx v ⟨e, old, same⟩
    · rw [new] at same
      exact other x hx (root.symm.trans same)

theorem untouched_copies (wf : s.nodeFactory.WellFormed) {l : List NodeIndex}
    {a b : NodeIndex → NodeIndex} (before : Untouched F k t s.view)
    (other : ∀ d ∈ l, ∀ x, x = k ∨ x = t → s.rep (b d) ≠ s.rep x) :
    let s' := l.foldl (fun s d => s.addCopyEdge (s.rep (a d)) (s.rep (b d))) s
    Untouched F k t s'.view ∧ s'.nodeFactory = s.nodeFactory := by
  induction l generalizing s with
  | nil => exact ⟨before, rfl⟩
  | cons d l ih =>
    let s₁ := s.addCopyEdge (s.rep (a d)) (s.rep (b d))
    have same : s₁.nodeFactory = s.nodeFactory := by
      show (s.addCopyEdge (s.rep (a d)) (s.rep (b d))).nodeFactory = _
      rw [addCopyEdge_eq]
    have reps : ∀ n, s₁.rep n = s.rep n := fun n => by
      unfold rep
      rw [same]
    have first : Untouched F k t s₁.view :=
      untouched_addCopyEdge before (target_idem wf (b d)) (other d (by simp))
    obtain ⟨last, factory⟩ := ih (s := s₁) (same ▸ wf) first fun e he x hx => by
      rw [reps, reps]
      exact other e (List.mem_cons_of_mem d he) x hx
    exact ⟨last, factory.trans same⟩

theorem untouched_addEdges (wf : s.nodeFactory.WellFormed) {node : NodeIndex} (different : node ≠ k)
    (before : Untouched F k t s.view)
    (pointees : ∀ v ∈ s.pts node, ∀ x, x = k ∨ x = t → s.rep v ≠ s.rep x) :
    Untouched F k t (s.addEdges node).view ∧ (s.addEdges node).nodeFactory = s.nodeFactory := by
  have loads : ∀ v (u : Solver), u.nodeFactory.WellFormed → Untouched F k t u.view →
      Untouched F k t (u.addLoads node v).view ∧
      (u.addLoads node v).nodeFactory = u.nodeFactory := by
    intro v u wfU beforeU
    obtain ⟨copied, factory⟩ := untouched_copies wfU (a := fun _ => v) (b := fun d => d)
      (l := (u.constraintGraph.edges .load node).bits) beforeU fun d hd x hx same => by
        have edge : u.rep x ∈ u.view.loadTo node := ⟨d, hd, same⟩
        rcases hx with rfl | rfl
        · exact beforeU.load_key node edge
        · exact different (beforeU.load_target node edge)
    refine ⟨?_, factory⟩
    unfold addLoads
    rw [updateEdges_view (factory ▸ wfU)]
    exact copied
  have stores : ∀ v (u : Solver), u.nodeFactory.WellFormed → Untouched F k t u.view →
      (∀ x, x = k ∨ x = t → u.rep v ≠ u.rep x) → Untouched F k t (u.addStores node v).view ∧
      (u.addStores node v).nodeFactory = u.nodeFactory := by
    intro v u wfU beforeU apart
    obtain ⟨copied, factory⟩ := untouched_copies wfU (a := fun d => d) (b := fun _ => v)
      (l := (u.constraintGraph.edges .store node).bits) beforeU fun _ _ => apart
    refine ⟨?_, factory⟩
    unfold addStores
    rw [updateEdges_view (factory ▸ wfU)]
    exact copied
  have all : ∀ (l : List NodeIndex) (u : Solver), u.nodeFactory = s.nodeFactory →
      (∀ v ∈ l, v ∈ s.pts node) → Untouched F k t u.view →
      Untouched F k t (l.foldl (fun u v => (u.addLoads node v).addStores node v) u).view ∧
      (l.foldl (fun u v => (u.addLoads node v).addStores node v) u).nodeFactory =
        s.nodeFactory := by
    intro l
    induction l with
    | nil => exact fun u factory _ beforeU => ⟨beforeU, factory⟩
    | cons v l ih =>
      intro u factory inside beforeU
      obtain ⟨first, one⟩ := loads v u (factory ▸ wf) beforeU
      have same : (u.addLoads node v).nodeFactory = s.nodeFactory := one.trans factory
      obtain ⟨second, two⟩ := stores v (u.addLoads node v) (same ▸ wf) first fun x hx => by
        unfold rep
        rw [same]
        exact pointees v (inside v (by simp)) x hx
      exact ih _ (two.trans same) (fun w hw => inside w (List.mem_cons_of_mem v hw)) second
  exact all (s.pts node).bits s rfl (fun v hv => hv) before

theorem untouched_propagate (wf : s.nodeFactory.WellFormed) (lcd : Bool) {node : NodeIndex}
    (before : Untouched F k t s.view) : Untouched F k t (s.propagate lcd node).view := by
  have each : ∀ (l : List NodeIndex) (u : Solver), u.nodeFactory = s.nodeFactory →
      Untouched F k t u.view →
      Untouched F k t (l.foldl (propagateEdge lcd node) u).view ∧
      (l.foldl (propagateEdge lcd node) u).nodeFactory = s.nodeFactory := by
    intro l
    induction l with
    | nil => exact fun u factory beforeU => ⟨beforeU, factory⟩
    | cons d l ih =>
      intro u factory beforeU
      by_cases itself : node = u.rep d
      · have idle : u.propagateEdge lcd node d = u := if_pos itself
        rw [List.foldl_cons, idle]
        exact ih u factory beforeU
      · have done := propagateEdge_propagated lcd itself
        obtain ⟨rep, copyTo, loadTo, _⟩ := done.view
        exact ih _ (done.factory.trans factory) (untouched_of_same beforeU rep copyTo loadTo)
  obtain ⟨after, factory⟩ := each (s.constraintGraph.edges .copy node).bits s rfl before
  unfold propagate
  rw [updateEdges_view (factory ▸ wf)]
  exact after

/-- What has to be known beforehand: nothing points to `k` or `t`, `k` is only given
    addresses, and no other entry of the map names them. -/
structure CollapsedOnce (S T : System NodeIndex) (F : AndersNodeFactory)
    (collapseMap : DenseMap NodeIndex) (k t : NodeIndex) : Prop where
  found : collapseMap.find k = some t
  pointees : ∀ n, ∀ v ∈ solution S n, ∀ x, x = k ∨ x = t →
    F.getMergeTarget v ≠ F.getMergeTarget x
  others : ∀ n u, collapseMap.find n = some u → F.getMergeTarget u ≠ F.getMergeTarget k ∧
    (F.getMergeTarget u = F.getMergeTarget t → n = k)
  given : ∀ v ∈ solution S k, ∃ d, T.addrOf d v ∧ F.getMergeTarget d = F.getMergeTarget k

/-- All that `k` points to has been collapsed. -/
def AllCollapsed (S : System NodeIndex) (k t : NodeIndex) (s : Solver) : Prop :=
  ∀ v ∈ solution S k, s.rep v = s.rep t

section Turn
variable (once : CollapsedOnce S T F collapseMap k t)
include once

theorem pointee_apart (before : Untouched F k t s.view) {n v : NodeIndex} (hv : v ∈ solution S n)
    {x : NodeIndex} (hx : x = k ∨ x = t) : s.rep v ≠ s.rep x :=
  fun same => once.pointees n v hv x hx (before.alone x hx v same)

theorem untouched_work (lcd : Bool) (valid : Valid S N s) (before : Untouched F k t s.view)
    {node : NodeIndex} (different : node ≠ k) :
    Untouched F k t ((s.addEdges node).propagate lcd node).view := by
  obtain ⟨edges, factory⟩ := untouched_addEdges valid.wf.factory different before
    fun v hv x hx => pointee_apart once before (valid.sound.pts node hv) hx
  exact untouched_propagate (factory ▸ valid.wf.factory) lcd edges

theorem untouched_collapse (before : Untouched F k t s.view) {node u : NodeIndex} {gone : Bool}
    {s₁ : Solver} {ps : List NodeIndex} (different : node ≠ k)
    (named : collapseMap.find node = some u) (after : AfterCollapse S N s node u gone s₁ ps) :
    Untouched F k t s₁.view := by
  rw [after.part.view]
  refine untouched_map before fun x hx mem => ?_
  obtain ⟨otherK, otherT⟩ := once.others node u named
  rcases List.mem_cons.mp mem with here | member
  · have same := before.alone x hx u here.symm
    rcases hx with rfl | rfl
    · exact otherK same
    · exact different (otherT same)
  · obtain ⟨v, hv, same⟩ := after.pointees _ member
    exact pointee_apart once before hv hx same

theorem allCollapsed_of_collapse (covers : s.view.Covers T)
    (coarse : ∀ a b, F.getMergeTarget a = F.getMergeTarget b → s.rep a = s.rep b)
    (before : Untouched F k t s.view) {gone : Bool} {s₁ : Solver} {ps : List NodeIndex}
    (after : AfterCollapse S N s k t gone s₁ ps) : gone = false ∧ AllCollapsed S k t s₁ := by
  have key : s.rep k = k := before.key
  have stays : gone = false := by
    cases gone with
    | false => rfl
    | true =>
      obtain ⟨v, hv, same⟩ := after.pointees k (after.merged rfl).1
      exact absurd (same.trans key.symm) (pointee_apart once before hv (.inl rfl))
  have other : s.rep t ≠ k := by
    intro same
    exact (once.others k t once.found).1 (before.alone k (.inl rfl) t (same.trans key.symm))
  obtain ⟨_, collapsed⟩ := after.complete stays other
  refine ⟨stays, fun v hv => ?_⟩
  obtain ⟨d, given, same⟩ := once.given v hv
  have known : v ∈ s.pts k := by
    have entry : v ∈ s.view.pts (s.rep d) := covers.addrOf d v given
    rwa [(coarse d k same).trans key] at entry
  have member : s.rep v ∈ (s.pts k).bits.map s.rep := List.mem_map_of_mem known
  have moved : ∀ n, s₁.rep n = into (s.rep t) ((s.pts k).bits.map s.rep) (s.rep n) := fun n =>
    (after.part.rep n).trans (congrFun collapsed (s.rep n))
  rw [moved, moved, into, if_pos member]
  unfold into
  split <;> rfl

theorem once_turn (lcd : Bool) (targets : Targets S N collapseMap)
    (coarse : ∀ a b, F.getMergeTarget a = F.getMergeTarget b → s.rep a = s.rep b)
    (valid : Valid S N s) (covers : s.view.Covers T) (before : Untouched F k t s.view)
    {q : NodeIndex} {s' : Solver} (run : processNode true lcd collapseMap s q = some s') :
    AllCollapsed S k t s' ∨ Untouched F k t s'.view := by
  have root : s.rep (s.rep q) = s.rep q := target_idem valid.wf.factory q
  unfold processNode at run
  by_cases skipped : (s.constraintGraph.graph (s.rep q)).isNone ∨ (s.ptsGraph (s.rep q)).isNone
  · rw [if_pos skipped] at run
    exact .inr (Option.some.inj run ▸ before)
  · simp only [if_neg skipped, if_true] at run
    have inside : s.rep q < N := by
      apply valid.wf.node_valid
      have present := (not_or.mp skipped).1
      rwa [Option.isNone_iff_eq_none, ← ne_eq, Option.ne_none_iff_isSome] at present
    cases named : collapseMap.find (s.rep q) with
    | none =>
      have idle : collapseStep collapseMap (s.rep q) s = some (false, s) := by
        unfold collapseStep
        rw [named]
      rw [idle] at run
      obtain rfl := Option.some.inj run
      refine .inr (untouched_work once lcd valid before fun same => ?_)
      rw [same, once.found] at named
      cases named
    | some u =>
      obtain ⟨gone, s₁, ps, collapse, after⟩ := collapseStep_spec targets valid root inside named
      have valid₁ := afterCollapse_valid valid after
      rw [collapse] at run
      by_cases key : s.rep q = k
      · left
        rw [key] at after named run
        obtain rfl := Option.some.inj (once.found.symm.trans named)
        obtain ⟨rfl, all⟩ := allCollapsed_of_collapse once covers coarse before after
        obtain rfl := Option.some.inj run
        have step := (work_spec lcd k valid₁).1
        intro v hv
        rw [step_rep step, step_rep step]
        exact all v hv
      · right
        have collapsed := untouched_collapse once before key named after
        cases gone with
        | true =>
          obtain rfl := Option.some.inj run
          exact collapsed
        | false =>
          obtain rfl := Option.some.inj run
          exact untouched_work once lcd valid₁ collapsed key

/-- Up to a state in which all that `k` points to has been collapsed, no copy edge enters `t`. -/
theorem once_reached {order : HashOrder} {lcd : Bool} {curr₀ curr : AndersWorkList} {s₀ : Solver}
    (targets : Targets S N collapseMap) (start : Valid S N s₀) (covers : s₀.view.Covers T)
    (coarse : ∀ a b, F.getMergeTarget a = F.getMergeTarget b → s₀.rep a = s₀.rep b)
    (untouched : Untouched F k t s₀.view)
    (reached : Reached order true lcd collapseMap curr₀ s₀ curr s) :
    AllCollapsed S k t s ∨ Untouched F k t s.view := by
  have detects : ∀ s s' : Solver, Valid S N s → s.detectIfAny order lcd = some s' →
      AllCollapsed S k t s ∨ Untouched F k t s.view →
      AllCollapsed S k t s' ∨ Untouched F k t s'.view := by
    intro s s' valid found before
    obtain ⟨u, again, _, _, _, condensed, _, _, coarser, _⟩ := detectIfAny_spec order lcd valid ∅
    obtain rfl := Option.some.inj (again.symm.trans found)
    rcases before with all | untouched
    · exact .inl fun v hv => coarser v t (all v hv)
    · exact .inr (untouched_condensed condensed untouched)
  induction reached with
  | start found => exact detects s₀ _ start found (.inr untouched)
  | @turn q rest s s' earlier run ih =>
    obtain ⟨validS, coversS, coarseS⟩ :=
      reached_valid (fun _ => targets) start covers coarse earlier
    rcases ih with all | before
    · obtain ⟨u, again, _, turn, _⟩ :=
        processNode_spec lcd (fun _ => targets) coarseS validS coversS q
      obtain rfl := Option.some.inj (again.symm.trans run)
      exact .inl fun v hv => turn.coarser v t (all v hv)
    · exact once_turn once lcd targets coarseS validS coversS before run
  | @pass s s' earlier found ih =>
    obtain ⟨validS, _, _⟩ := reached_valid (fun _ => targets) start covers coarse earlier
    exact detects { s with nextWorkList := [] } s' ⟨validS.wf, validS.sound, validS.candidates⟩
      found ih

theorem collapseSafe_of_once {waiting : Set NodeIndex} (valid : Valid S N s)
    (state : AllCollapsed S k t s ∨ Untouched F k t s.view) :
    CollapseSafe collapseMap waiting s k := by
  intro u named
  obtain rfl := Option.some.inj (once.found.symm.trans named)
  rcases state with all | untouched
  · left
    intro m mem
    obtain ⟨v, hv, rfl⟩ := List.mem_map.mp mem
    exact all v (valid.sound.pts k (SparseBitVector.mem_bits.mp hv))
  · refine .inr (.inr (.inr (.inl fun m _ edge => ?_)))
    exact untouched.copy t (.inr rfl) m ⟨_, edge, target_idem valid.wf.factory t⟩

end Turn

end Solver

end ProgramSlicer.Andersen
