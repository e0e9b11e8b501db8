import ProgramSlicer.Andersen.ConstraintRewriting
import ProgramSlicer.Andersen.PointerEquivalence

/-!
Offline variable substitution loses no points-to fact as long as, in each of its passes,
node `N` is guarded and the table that the search goes through does not rehash. The
assertions hold in any case.
-/
namespace ProgramSlicer.Andersen
open AndersNodeFactory InclusionConstraints Components ValueNumbering

namespace ConstraintOptimizer
variable {copies : Prop} {F : AndersNodeFactory} {cs : List AndersConstraint}

section Labels
variable {done : Set NodeIndex} {s : State} {next : Nat} {sets : Set Nat}
  (numbering : Numbering (PredEdge F cs) (Indirect F cs) copies done s.label next sets)
  (finished : ∀ v w, PredEdge F cs v w → v ∈ done ∧ w ∈ done)
  (wf : F.WellFormed) (valid : ValidConstraints F.numNodes cs)
include numbering

theorem indirect_label {v : NodeIndex} (old : v ∈ done) (indirect : Indirect F cs v) :
    s.label v ≠ 0 :=
  numbering.pinned_ne v old ⟨v, joined_refl v, indirect⟩

include finished

theorem edge_label {v w : NodeIndex} (edge : PredEdge F cs v w) (pointer : s.label w ≠ 0) :
    s.label v ≠ 0 := by
  by_cases pinned : Pinned (PredEdge F cs) (Indirect F cs) v
  · exact numbering.pinned_ne v (finished v w edge).1 pinned
  · exact numbering.along v (finished v w edge).1 pinned w edge pointer

include wf valid

omit numbering finished in
theorem eq_of_joined_adr {v o : NodeIndex}
    (joined : Joined (PredEdge F cs) v (getAdrNodeIndex F o)) : v = getAdrNodeIndex F o := by
  refine eq_of_joined_end (fun w edge => ?_) joined
  have low := (predEdge_range wf valid edge).1
  exact absurd low (Nat.not_lt.mpr (Nat.le_add_left _ o))

omit finished in
theorem indirect_only {v o : NodeIndex} (old : v ∈ done) (indirect : Indirect F cs v)
    (adr : getAdrNodeIndex F o ∈ done) (same : s.label v = s.label (getAdrNodeIndex F o)) :
    v = getAdrNodeIndex F o := by
  apply eq_of_joined_adr wf valid
  exact numbering.pinned_apart v old _ adr ⟨v, joined_refl v, indirect⟩
    ⟨_, joined_refl _, .inl (Nat.le_trans (Nat.le_mul_of_pos_left _ (by decide))
      (Nat.le_add_left _ o))⟩ same

theorem edge_only {v w o : NodeIndex} (var : v < F.numNodes) (edge : PredEdge F cs v w)
    (adr : getAdrNodeIndex F o ∈ done) (same : s.label v = s.label (getAdrNodeIndex F o))
    (pointer : s.label w ≠ 0) : copies ∧ s.label w = s.label (getAdrNodeIndex F o) := by
  have above : ∀ o N : Nat, N ≤ o + 2 * N := by omega
  have pinnedAdr : Pinned (PredEdge F cs) (Indirect F cs) (getAdrNodeIndex F o) :=
    ⟨_, joined_refl _, .inl (above o F.numNodes)⟩
  have old := (finished v w edge).1
  by_cases pinned : Pinned (PredEdge F cs) (Indirect F cs) v
  · have joined := numbering.pinned_apart v old _ adr pinned pinnedAdr same
    rw [eq_of_joined_adr wf valid joined] at var
    exact absurd (above o F.numNodes) (Nat.not_le_of_lt var)
  · obtain ⟨allowed, each⟩ := numbering.copied v old pinned _ adr pinnedAdr same
    exact ⟨allowed, (each w edge).resolve_left pointer⟩

theorem labelling (keys : ∀ v, v ∈ s.peLabel.keys ↔ v ∈ done)
    (fresh : copies → ∀ n, F.getMergeTarget n = n) :
    Labelling (mergedSystem F cs) (NonPointer s F) (OnlyAddress s F) := by
  have var : ∀ n, n < F.numNodes → F.getMergeTarget n < F.numNodes := fun n => target_inside wf
  have refAbove : ∀ n N : Nat, N ≤ n + N := by omega
  have adrAbove : ∀ n N : Nat, N ≤ n + 2 * N := by omega
  constructor
  case addrOf =>
    intro d x c
    have edge : PredEdge F cs (F.getMergeTarget d) (getAdrNodeIndex F (F.getMergeTarget x)) :=
      ⟨_, c, by simp [edgesOf]⟩
    have old := (finished _ _ edge).2
    have indirect : Indirect F cs (getAdrNodeIndex F (F.getMergeTarget x)) :=
      .inl (adrAbove _ F.numNodes)
    have pointer := indirect_label numbering old indirect
    refine ⟨edge_label numbering finished edge pointer, ?_⟩
    intro o ⟨key, same⟩
    have adr := (keys _).mp key
    obtain ⟨allowed, label⟩ := edge_only numbering finished wf valid (var d (valid _ c).1) edge
      adr same pointer
    have place := indirect_only numbering wf valid old indirect adr label
    rw [fresh allowed] at place
    exact Nat.add_right_cancel place
  case copy =>
    intro d x c pointer
    rcases c with c | same
    · have edge : PredEdge F cs (F.getMergeTarget d) (F.getMergeTarget x) :=
        ⟨_, c, by simp [edgesOf]⟩
      refine ⟨edge_label numbering finished edge pointer, ?_⟩
      intro o ⟨key, same⟩
      exact ⟨key, (edge_only numbering finished wf valid (var d (valid _ c).1) edge
        ((keys _).mp key) same pointer).2⟩
    · unfold NonPointer OnlyAddress at *
      rw [same]
      exact ⟨pointer, fun o only => only⟩
  case load =>
    intro d x c
    have edge : PredEdge F cs (F.getMergeTarget d) (getRefNodeIndex F (F.getMergeTarget x)) :=
      ⟨_, c, by simp [edgesOf]⟩
    have old := (finished _ _ edge).2
    have indirect : Indirect F cs (getRefNodeIndex F (F.getMergeTarget x)) :=
      .inl (refAbove _ F.numNodes)
    have pointer := indirect_label numbering old indirect
    refine ⟨edge_label numbering finished edge pointer, ?_⟩
    intro o ⟨key, same⟩
    have adr := (keys _).mp key
    obtain ⟨_, label⟩ := edge_only numbering finished wf valid (var d (valid _ c).1) edge
      adr same pointer
    have place := indirect_only numbering wf valid old indirect adr label
    have apart : ∀ x o N : Nat, x < N → x + N ≠ o + 2 * N := by omega
    exact apart _ o F.numNodes (var x (valid _ c).2) place
  case taken =>
    intro d x c
    have edge : PredEdge F cs (getRefNodeIndex F (F.getMergeTarget d)) (F.getMergeTarget x) :=
      ⟨_, c, by simp [edgesOf]⟩
    have old := (finished _ _ edge).2
    have indirect : Indirect F cs (F.getMergeTarget x) := .inr ⟨_, c, rfl, rfl⟩
    refine ⟨indirect_label numbering old indirect, ?_⟩
    intro o ⟨key, same⟩
    have place := indirect_only numbering wf valid old indirect ((keys _).mp key) same
    have low := var x (valid _ c).2
    rw [place] at low
    exact absurd (adrAbove o F.numNodes) (Nat.not_le_of_lt low)

end Labels

/-- One pass: it comes through unless its table rehashes, and then nothing is lost where node `N`
    is guarded. -/
theorem run_spec {Own : State → Prop} {propagateLabel : PropagateLabel}
    (law : Propagates copies Own propagateLabel) (policy : HashTable.Policy NodeIndex)
    (order : HashOrder) (wf : F.WellFormed) (valid : ValidConstraints F.numNodes cs)
    (roots : ∀ c ∈ cs, F.getMergeTarget c.dest = c.dest)
    (fresh : copies → ∀ n, F.getMergeTarget n = n) (own : Own (buildPredecessorGraph policy F cs)) :
    (Steady policy F cs ∧ ∃ F' cs', run propagateLabel policy order F cs = some (F', cs') ∧
      F'.WellFormed ∧ F'.numNodes = F.numNodes ∧ (∀ c ∈ cs', Fits F' c) ∧
      (RefZeroGuarded F cs → solution (mergedSystem F cs) ≤ solution (mergedSystem F' cs'))) ∨
    (¬ Steady policy F cs ∧ run propagateLabel policy order F cs = none) := by
  unfold run
  rcases runOnGraph_good law policy wf valid own with
    ⟨steady, search, done, ran, good, inside, all⟩ | ⟨unsteady, ran⟩
  · left
    obtain ⟨labels, keys⟩ := spreadLabel_spec order good
    let s := (order.arrange search.client.mergeTarget.keys).foldl spreadLabel search.client
    obtain ⟨F', cs', rewrote, result⟩ := rewriteConstraint_spec order (s := s) wf valid roots
      fun n hn => inside n ((keys n).mp hn)
    refine ⟨steady, F', cs', ?_, result.wf, result.size, result.fits, ?_⟩
    · rw [ran]
      exact rewrote
    · intro guarded
      have numbering := good.numbering guarded
      rw [← labels] at numbering
      have finished : ∀ v w, PredEdge F cs v w → v ∈ done ∧ w ∈ done :=
        fun v w edge => ⟨all v w edge, good.settled v (all v w edge) w edge⟩
      exact solution_le_rewritten (labelling numbering finished wf valid keys fresh)
        result.rewrites (target_idem result.wf)
  · right
    rw [ran]
    exact ⟨unsteady, rfl⟩

end ConstraintOptimizer

open ConstraintOptimizer

section Optimize
variable {policy : HashTable.Policy NodeIndex} {order : HashOrder} {hvn hu : Bool} {N : Nat}
  {cs : List AndersConstraint}

/-- The assertions hold, and the solution of the constraints that are left, in which nodes that
    have been merged share one set, has every fact of the solution of the given ones. -/
def LosesNothing (policy : HashTable.Policy NodeIndex) (order : HashOrder) (hvn hu : Bool)
    (N : Nat) (cs : List AndersConstraint) : Prop :=
  ∃ F' cs', optimizeConstraints policy order hvn hu (.fresh N) cs = some (F', cs') ∧
    ∀ n, solution (constraintSystem cs) n ⊆ solution (mergedSystem F' cs') n

def BeforeHU (policy : HashTable.Policy NodeIndex) (order : HashOrder) (hvn : Bool) (N : Nat)
    (cs : List AndersConstraint) (F : AndersNodeFactory) (cs₁ : List AndersConstraint) : Prop :=
  optimizeConstraints policy order hvn false (.fresh N) cs = some (F, cs₁)

def AtPasses (P : AndersNodeFactory → List AndersConstraint → Prop)
    (policy : HashTable.Policy NodeIndex) (order : HashOrder) (hvn hu : Bool) (N : Nat)
    (cs : List AndersConstraint) : Prop :=
  (hvn = true → P (.fresh N) cs) ∧
    (hu = true → ∀ F cs₁, BeforeHU policy order hvn N cs F cs₁ → P F cs₁)

theorem mergedSystem_fresh :
    solution (mergedSystem (.fresh N) cs) = solution (constraintSystem cs) :=
  identify_injective fun a b same => by simpa using same

theorem afterHVN_spec (policy : HashTable.Policy NodeIndex) (order : HashOrder) (hvn : Bool)
    (valid : ValidConstraints N cs) :
    ((hvn = true → Steady policy (.fresh N) cs) ∧
      ∃ F' cs', BeforeHU policy order hvn N cs F' cs' ∧ F'.WellFormed ∧ F'.numNodes = N ∧
      ValidConstraints N cs' ∧ (∀ c ∈ cs', F'.getMergeTarget c.dest = c.dest) ∧
      ((hvn = true → RefZeroGuarded (.fresh N) cs) →
        solution (constraintSystem cs) ≤ solution (mergedSystem F' cs'))) ∨
    (hvn = true ∧ ¬ Steady policy (.fresh N) cs ∧
      ∀ hu, optimizeConstraints policy order hvn hu (.fresh N) cs = none) := by
  cases hvn with
  | false =>
    refine .inl ⟨by simp, .fresh N, cs, rfl, fresh_wellFormed N, rfl, valid,
      fun c _ => fresh_target N _, ?_⟩
    exact fun _ => mergedSystem_fresh.ge
  | true =>
    rcases run_spec HVNOptimizer.propagates policy order (fresh_wellFormed N) valid
      (fun c _ => fresh_target N _) (fun _ n => fresh_target N n) trivial with
      ⟨steady, F', cs', run, wf, size, fits, kept⟩ | ⟨unsteady, run⟩
    · have sizeN : F'.numNodes = N := size
      refine .inl ⟨fun _ => steady, F', cs', ?_, wf, size, fun c hc => ?_,
        fun c hc => (fits c hc).2.2, ?_⟩
      · unfold BeforeHU optimizeConstraints HVNOptimizer.run
        rw [if_pos rfl, run]
        rfl
      · exact ⟨sizeN ▸ (fits c hc).1, sizeN ▸ (fits c hc).2.1⟩
      · intro guarded
        rw [← mergedSystem_fresh (N := N)]
        exact kept (guarded rfl)
    · refine .inr ⟨rfl, unsteady, fun hu => ?_⟩
      unfold optimizeConstraints HVNOptimizer.run
      rw [if_pos rfl, run]
      rfl

theorem targeted_start (policy : HashTable.Policy NodeIndex) (F : AndersNodeFactory)
    (cs : List AndersConstraint) : HUOptimizer.Targeted (buildPredecessorGraph policy F cs) := by
  intro n l found
  rw [(build_unlabelled policy F cs).1] at found
  exact absurd found (by simp)

theorem optimizeConstraints_hu {F : AndersNodeFactory} {cs₁ : List AndersConstraint}
    (before : BeforeHU policy order hvn N cs F cs₁) :
    optimizeConstraints policy order hvn true (.fresh N) cs =
      HUOptimizer.run policy order F cs₁ := by
  have result : (if hvn = true then HVNOptimizer.run policy order (.fresh N) cs
      else some (.fresh N, cs)) = some (F, cs₁) := by
    simpa [BeforeHU, optimizeConstraints] using before
  unfold optimizeConstraints
  dsimp only
  rw [result]
  rfl

theorem optimizeConstraints_spec (policy : HashTable.Policy NodeIndex) (order : HashOrder)
    (hvn hu : Bool) (valid : ValidConstraints N cs) :
    (AtPasses (Steady policy) policy order hvn hu N cs ∧
      ∃ F' cs', optimizeConstraints policy order hvn hu (.fresh N) cs = some (F', cs') ∧
      F'.WellFormed ∧ F'.numNodes = N ∧ ValidConstraints N cs' ∧
      (AtPasses RefZeroGuarded policy order hvn hu N cs →
        solution (constraintSystem cs) ≤ solution (mergedSystem F' cs'))) ∨
    (¬ AtPasses (Steady policy) policy order hvn hu N cs ∧
      optimizeConstraints policy order hvn hu (.fresh N) cs = none) := by
  rcases afterHVN_spec policy order hvn valid with
    ⟨steady, F, cs₁, first, wf, size, valid₁, roots, kept⟩ | ⟨on, unsteady, none⟩
  · cases hu with
    | false =>
      exact .inl ⟨⟨steady, by simp⟩, F, cs₁, first, wf, size, valid₁,
        fun guarded => kept guarded.1⟩
    | true =>
      have unique : ∀ F₂ cs₂, BeforeHU policy order hvn N cs F₂ cs₂ → F₂ = F ∧ cs₂ = cs₁ := by
        intro F₂ cs₂ before
        obtain ⟨rfl, rfl⟩ := Prod.mk.inj (Option.some.inj (first.symm.trans before))
        exact ⟨rfl, rfl⟩
      have second := optimizeConstraints_hu first
      rcases run_spec HUOptimizer.propagates policy order wf (size ▸ valid₁) roots
        (fun h => h.elim) (targeted_start policy F cs₁) with
        ⟨steady', F', cs', run, wf', size', fits, kept'⟩ | ⟨unsteady', run⟩
      · have sizeN : F'.numNodes = N := size'.trans size
        refine .inl ⟨⟨steady, fun _ F₂ cs₂ before => ?_⟩, F', cs', second.trans run, wf', sizeN,
          fun c mem => ⟨sizeN ▸ (fits c mem).1, sizeN ▸ (fits c mem).2.1⟩, ?_⟩
        · obtain ⟨rfl, rfl⟩ := unique F₂ cs₂ before
          exact steady'
        · intro guarded
          exact (kept guarded.1).trans (kept' (guarded.2 rfl F cs₁ first))
      · exact .inr ⟨fun all => unsteady' (all.2 rfl F cs₁ first), second.trans run⟩
  · exact .inr ⟨fun all => unsteady (all.1 on), none hu⟩

end Optimize

theorem guarded_of_unread {F : AndersNodeFactory} {cs : List AndersConstraint}
    (wf : F.WellFormed) (valid : ValidConstraints F.numNodes cs)
    (unread : ∀ c ∈ cs, c.type = .LOAD ∨ c.type = .COPY → F.getMergeTarget c.src ≠ 0) :
    RefZeroGuarded F cs := by
  intro v low joined
  exfalso
  rcases Relation.ReflTransGen.cases_tail joined.1 with same | ⟨u, _, c, hc, here⟩
  · exact absurd same (Nat.ne_of_gt low)
  · have src := target_inside wf (valid c hc).2
    have apart : ∀ x N : Nat, x < N → N ≠ x ∧ N ≠ x + 2 * N ∧ (N = x + N → x = 0) := by omega
    obtain ⟨var, adr, ref⟩ := apart _ F.numNodes src
    unfold edgesOf getRefNodeIndex getAdrNodeIndex at here
    cases type : c.type <;> simp only [type, List.mem_cons, Prod.mk.injEq, List.not_mem_nil,
      or_false] at here
    case ADDR_OF => exact here.elim (fun h => adr h.2) (fun h => var h.2)
    case LOAD => exact unread c hc (.inl type) (ref here.2)
    case STORE => exact var here.2
    case COPY => exact here.elim (fun h => var h.2) (fun h => unread c hc (.inr type) (ref h.2))

/-! ### Two inputs -/

def storeThroughCopy : List AndersConstraint :=
  [⟨.ADDR_OF, 1, 2⟩, ⟨.COPY, 3, 1⟩, ⟨.STORE, 3, 4⟩, ⟨.ADDR_OF, 4, 5⟩, ⟨.LOAD, 6, 1⟩]

theorem storeThroughCopy_run :
    (optimizeConstraints HashTable.Libstdcxx.policy bucketOrder true false (.fresh 7)
      storeThroughCopy).map (fun r =>
        (r.2, [2, 4].map r.1.getMergeTarget, decide (Steady HashTable.Libstdcxx.policy r.1 r.2))) =
    some ([⟨.COPY, 6, 2⟩, ⟨.COPY, 2, 4⟩, ⟨.ADDR_OF, 4, 5⟩, ⟨.ADDR_OF, 1, 2⟩], [2, 4], true) := by
  decide +kernel

/-- `*p = q; p = *r; r = &a; a = &b; b = &c; q = *p`, where `p` is node 0. -/
def loadedThroughZero : List AndersConstraint :=
  [⟨.STORE, 0, 1⟩, ⟨.LOAD, 0, 2⟩, ⟨.ADDR_OF, 2, 3⟩, ⟨.ADDR_OF, 3, 4⟩, ⟨.ADDR_OF, 4, 5⟩,
    ⟨.LOAD, 1, 0⟩]

theorem loadedThroughZero_run :
    (optimizeConstraints HashTable.Libstdcxx.policy bucketOrder true false (.fresh 6)
      loadedThroughZero).map (fun r => (r.2, [0, 1, 2, 3, 4].map r.1.getMergeTarget)) =
    some ([⟨.STORE, 0, 1⟩, ⟨.COPY, 0, 3⟩, ⟨.ADDR_OF, 4, 5⟩, ⟨.ADDR_OF, 3, 4⟩, ⟨.ADDR_OF, 2, 3⟩],
      [0, 1, 2, 3, 4]) := by decide +kernel

/-- Six addresses, with which the search puts the fourteenth node into the table. -/
def manyAddresses : List AndersConstraint :=
  [⟨.ADDR_OF, 0, 1⟩, ⟨.STORE, 1, 1⟩, ⟨.ADDR_OF, 2, 3⟩, ⟨.ADDR_OF, 4, 5⟩, ⟨.ADDR_OF, 6, 7⟩,
    ⟨.ADDR_OF, 8, 9⟩, ⟨.ADDR_OF, 10, 11⟩]

end ProgramSlicer.Andersen
