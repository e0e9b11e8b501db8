import ProgramSlicer.Andersen.ConstraintOptimize
import ProgramSlicer.Andersen.CycleOptimisation
import ProgramSlicer.Library.VariableSubstitution

/-!
`rewriteConstraint`: its assertions hold, it merges VAR nodes with one label only, and
every constraint is kept, left out or replaced as its labels say, be they right or wrong.
-/
namespace ProgramSlicer.Andersen.ConstraintOptimizer
open AndersNodeFactory FoldRules InclusionConstraints

variable {s : State} {F : AndersNodeFactory} {cs : List AndersConstraint}

theorem mem_uniquify {c : AndersConstraint} : c ∈ uniquify cs ↔ c ∈ cs := by
  unfold uniquify
  rw [List.mem_insertionSort, List.mem_dedup]

theorem mem_keys_of_label {n : NodeIndex} (other : s.label n ≠ 0) : n ∈ s.peLabel.keys := by
  rw [DenseMap.listed]
  unfold State.label at other
  cases found : s.peLabel.find n with
  | none => simp [found] at other
  | some l => rfl

/-! ### The merges -/

/-- The first loop has seen the nodes of `seen`. -/
structure Merging (s : State) (F : AndersNodeFactory) (seen : Set NodeIndex)
    (F₁ : AndersNodeFactory) (revLabelMap : RevLabelMap) : Prop where
  wf : F₁.WellFormed
  size : F₁.numNodes = F.numNodes
  through : ∀ n, F₁.getMergeTarget n = F₁.getMergeTarget (F.getMergeTarget n)
  root : ∀ n, F.getMergeTarget (F₁.getMergeTarget n) = F₁.getMergeTarget n
  same : ∀ n, s.label (F₁.getMergeTarget n) = s.label (F.getMergeTarget n)
  ahead : ∀ n ∉ seen, F.getMergeTarget n = n → F₁.getMergeTarget n = n
  named : ∀ l n, revLabelMap l = some n →
    n ∈ seen ∧ n < F.numNodes ∧ s.label n = l ∧ F₁.getMergeTarget n = n
  found : ∀ n ∈ seen, n < F.numNodes → F.getMergeTarget n = n → s.label n ≠ 0 →
    revLabelMap (s.label n) = some (F₁.getMergeTarget n)

theorem merging_start (wf : F.WellFormed) : Merging s F ∅ F fun _ => none where
  wf := wf
  size := rfl
  through n := (target_idem wf n).symm
  root := target_idem wf
  same _ := rfl
  ahead _ _ root := root
  named := by simp
  found := by simp

section Step
variable {seen : Set NodeIndex} {F₁ : AndersNodeFactory} {revLabelMap : RevLabelMap}
  {x : NodeIndex}

theorem Merging.skip (merging : Merging s F seen F₁ revLabelMap)
    (nothing : x < F.numNodes → F.getMergeTarget x = x → s.label x = 0) :
    Merging s F (insert x seen) F₁ revLabelMap where
  wf := merging.wf
  size := merging.size
  through := merging.through
  root := merging.root
  same := merging.same
  ahead n out := merging.ahead n fun old => out (Set.mem_insert_of_mem x old)
  named l n here := by
    obtain ⟨old, rest⟩ := merging.named l n here
    exact ⟨Set.mem_insert_of_mem x old, rest⟩
  found n hn inside root other := by
    rcases Set.mem_insert_iff.mp hn with here | old
    · rw [here] at inside root other
      exact absurd (nothing inside root) other
    · exact merging.found n old inside root other

theorem Merging.name (merging : Merging s F seen F₁ revLabelMap) (inside : x < F.numNodes)
    (target : F₁.getMergeTarget x = x) (none : revLabelMap (s.label x) = none) :
    Merging s F (insert x seen) F₁ (Function.update revLabelMap (s.label x) (some x)) where
  wf := merging.wf
  size := merging.size
  through := merging.through
  root := merging.root
  same := merging.same
  ahead n out := merging.ahead n fun old => out (Set.mem_insert_of_mem x old)
  named l n here := by
    by_cases label : l = s.label x
    · rw [label, Function.update_self, Option.some.injEq] at here
      rw [← here]
      exact ⟨Set.mem_insert x seen, inside, label.symm, target⟩
    · rw [Function.update_of_ne label] at here
      obtain ⟨old, rest⟩ := merging.named l n here
      exact ⟨Set.mem_insert_of_mem x old, rest⟩
  found n hn low root other := by
    rcases Set.mem_insert_iff.mp hn with here | old
    · rw [here, Function.update_self, target]
    · have before := merging.found n old low root other
      rw [Function.update_of_ne, before]
      intro label
      rw [label, none] at before
      exact absurd before (by simp)

theorem Merging.merge (merging : Merging s F seen F₁ revLabelMap) (new : x ∉ seen)
    (inside : x < F.numNodes) (target : F₁.getMergeTarget x = x) {first : NodeIndex}
    (known : revLabelMap (s.label x) = some first) :
    ∃ F₂, F₁.mergeNode first x = some F₂ ∧ Merging s F (insert x seen) F₂ revLabelMap := by
  obtain ⟨old, low, label, fixed⟩ := merging.named _ first known
  have other : first ≠ x := fun same => new (same ▸ old)
  obtain ⟨F₂, run, wf, size, moved⟩ := mergeNode_spec merging.wf (merging.size ▸ low)
    (merging.size ▸ inside) fixed target other
  have rootFirst : F.getMergeTarget first = first := by
    have root := merging.root first
    rwa [fixed] at root
  refine ⟨F₂, run, wf, size.trans merging.size, ?_, ?_, ?_, ?_, ?_, ?_⟩
  · intro n
    rw [moved, moved, ← merging.through]
  · intro n
    rw [moved]
    split
    · exact rootFirst
    · exact merging.root n
  · intro n
    rw [moved]
    split
    · rename_i here
      rw [label, ← merging.same n, here]
    · exact merging.same n
  · intro n out root
    rw [Set.mem_insert_iff, not_or] at out
    rw [moved, merging.ahead n out.2 root, if_neg out.1]
  · intro l n here
    obtain ⟨oldN, rest, labelN, fixedN⟩ := merging.named l n here
    refine ⟨Set.mem_insert_of_mem x oldN, rest, labelN, ?_⟩
    rw [moved, fixedN, if_neg fun same : n = x => new (same ▸ oldN)]
  · intro n hn lowN root other
    rw [moved]
    rcases Set.mem_insert_iff.mp hn with here | oldN
    · rw [here, target, if_pos rfl, known]
    · have before := merging.found n oldN lowN root other
      rw [before, if_neg]
      intro same
      rw [same] at before
      exact new (merging.named _ x before).1

theorem mergeSameLabel_spec (merging : Merging s F seen F₁ revLabelMap) (new : x ∉ seen) :
    ∃ r, mergeSameLabel s (F₁, revLabelMap) x = some r ∧
      Merging s F (insert x seen) r.1 r.2 := by
  unfold mergeSameLabel
  dsimp only
  rw [merging.size]
  by_cases inside : x < F.numNodes
  · rw [if_neg (Nat.not_le_of_lt inside)]
    by_cases target : F₁.getMergeTarget x = x
    · rw [if_neg (not_not.mpr target)]
      cases known : revLabelMap (s.label x) with
      | none => exact ⟨_, rfl, merging.name inside target known⟩
      | some first =>
        by_cases zero : s.label x = 0
        · exact ⟨_, if_neg (not_not.mpr zero), merging.skip fun _ _ => zero⟩
        · obtain ⟨F₂, run, merged⟩ := merging.merge new inside target known
          refine ⟨(F₂, revLabelMap), ?_, merged⟩
          dsimp only
          rw [if_pos zero, run]
          rfl
    · refine ⟨_, if_pos target, merging.skip fun _ root => ?_⟩
      exact absurd (merging.ahead x new root) target
  · exact ⟨_, if_pos (Nat.le_of_not_lt inside), merging.skip fun low => absurd low inside⟩

theorem mergeSameLabels_spec {l : List NodeIndex} (nodup : l.Nodup) (new : ∀ n ∈ l, n ∉ seen)
    (merging : Merging s F seen F₁ revLabelMap) :
    ∃ r, l.foldlM (mergeSameLabel s) (F₁, revLabelMap) = some r ∧
      ∃ seen', (∀ n ∈ l, n ∈ seen') ∧ seen ⊆ seen' ∧ Merging s F seen' r.1 r.2 := by
  induction l generalizing seen F₁ revLabelMap with
  | nil => exact ⟨_, rfl, seen, by simp, Set.Subset.rfl, merging⟩
  | cons x rest ih =>
    obtain ⟨apart, nodup⟩ := List.nodup_cons.mp nodup
    obtain ⟨r, run, merging'⟩ := mergeSameLabel_spec merging (new x (by simp))
    obtain ⟨r', runs, seen', all, more, done⟩ := ih nodup (fun n hn => by
      rw [Set.mem_insert_iff, not_or]
      exact ⟨fun same => apart (same ▸ hn), new n (by simp [hn])⟩) merging'
    refine ⟨r', ?_, seen', ?_, ?_, done⟩
    · rw [List.foldlM_cons, run]
      exact runs
    · intro n hn
      rcases List.mem_cons.mp hn with same | later
      · exact more (same ▸ Set.mem_insert x seen)
      · exact all n later
    · exact fun n hn => more (Set.mem_insert_of_mem x hn)

end Step

/-! ### The new constraints -/

def NonPointer (s : State) (F : AndersNodeFactory) (n : NodeIndex) : Prop :=
  s.label (F.getMergeTarget n) = 0

def OnlyAddress (s : State) (F : AndersNodeFactory) (n o : NodeIndex) : Prop :=
  getAdrNodeIndex F o ∈ s.peLabel.keys ∧ s.label (F.getMergeTarget n) = s.label (getAdrNodeIndex F o)

def KeysInside (s : State) (F : AndersNodeFactory) : Prop :=
  ∀ n ∈ s.peLabel.keys, n < 3 * F.numNodes

theorem collectAdrLabel_cases (order : HashOrder) (inside : KeysInside s F)
    (revLabelMap : RevLabelMap) (l : Nat) :
    let rev := (order.arrange s.peLabel.keys).foldl (collectAdrLabel s F) revLabelMap
    rev l = revLabelMap l ∨ ∃ o < F.numNodes, F.getMergeTarget o = o ∧
      getAdrNodeIndex F o ∈ s.peLabel.keys ∧ s.label (getAdrNodeIndex F o) = l ∧
      rev l = some (getAdrNodeIndex F o) := by
  apply foldl_keeps (P := fun rev : RevLabelMap => rev l = revLabelMap l ∨
    ∃ o < F.numNodes, F.getMergeTarget o = o ∧ getAdrNodeIndex F o ∈ s.peLabel.keys ∧
      s.label (getAdrNodeIndex F o) = l ∧ rev l = some (getAdrNodeIndex F o))
  · intro n hn rev kept
    rw [order.mem_arrange] at hn
    unfold collectAdrLabel
    split
    · exact kept
    · rename_i high
      dsimp only
      split
      · exact kept
      · rename_i root
        by_cases here : l = s.label n
        · have split : ∀ n N : Nat, n < 3 * N → ¬ n < N * 2 →
              n - N * 2 < N ∧ n - N * 2 + 2 * N = n := by omega
          obtain ⟨low, same⟩ := split n F.numNodes (inside n hn) high
          have node : getAdrNodeIndex F (n - F.numNodes * 2) = n := same
          right
          refine ⟨n - F.numNodes * 2, low, not_not.mp root, ?_, ?_, ?_⟩
          · rwa [node]
          · rw [node, here]
          · rw [here, Function.update_self, node]
        · rw [Function.update_of_ne here]
          exact kept
  · exact .inl rfl

/-- What the code has made of one constraint. -/
def Rewritten (s : State) (F F' : AndersNodeFactory) (new : List AndersConstraint)
    (c : AndersConstraint) : Prop :=
  let destTgt := F'.getMergeTarget c.dest
  let srcTgt := F'.getMergeTarget c.src
  NonPointer s F c.dest ∨
    match c.type with
    | .ADDR_OF => ⟨.ADDR_OF, destTgt, c.src⟩ ∈ new
    | .LOAD => NonPointer s F c.src ∨ ⟨.LOAD, destTgt, srcTgt⟩ ∈ new ∨
        ∃ o, OnlyAddress s F c.src o ∧ (destTgt = F'.getMergeTarget o ∨ ⟨.COPY, destTgt, o⟩ ∈ new)
    | .STORE => ⟨.STORE, destTgt, srcTgt⟩ ∈ new ∨
        ∃ o, OnlyAddress s F c.dest o ∧ (F'.getMergeTarget o = srcTgt ∨ ⟨.COPY, o, srcTgt⟩ ∈ new)
    | .COPY => NonPointer s F c.src ∨ destTgt = srcTgt ∨ ⟨.COPY, destTgt, srcTgt⟩ ∈ new ∨
        ∃ o, OnlyAddress s F c.src o ∧ ⟨.ADDR_OF, destTgt, o⟩ ∈ new

theorem rewritten_mono {F' : AndersNodeFactory} {new new' : List AndersConstraint}
    (more : ∀ e ∈ new, e ∈ new') {c : AndersConstraint} (rewritten : Rewritten s F F' new c) :
    Rewritten s F F' new' c := by
  unfold Rewritten at rewritten ⊢
  dsimp only at rewritten ⊢
  refine rewritten.imp id ?_
  cases c.type with
  | ADDR_OF => exact more _
  | LOAD =>
    exact Or.imp id (Or.imp (more _) (Exists.imp fun o => And.imp id (Or.imp id (more _))))
  | STORE => exact Or.imp (more _) (Exists.imp fun o => And.imp id (Or.imp id (more _)))
  | COPY => exact Or.imp id (Or.imp id (Or.imp (more _) (Exists.imp fun o => And.imp id (more _))))

def Fits (F' : AndersNodeFactory) (e : AndersConstraint) : Prop :=
  e.dest < F'.numNodes ∧ e.src < F'.numNodes ∧ F'.getMergeTarget e.dest = e.dest

section Rewrite
variable {F' : AndersNodeFactory} {named rev : RevLabelMap} {seen : Set NodeIndex}
  (merging : Merging s F seen F' named) (all : ∀ n ∈ s.peLabel.keys, n ∈ seen)
  (cases : ∀ l, rev l = named l ∨ ∃ o < F'.numNodes, F'.getMergeTarget o = o ∧
    getAdrNodeIndex F' o ∈ s.peLabel.keys ∧ s.label (getAdrNodeIndex F' o) = l ∧
    rev l = some (getAdrNodeIndex F' o))
include merging all cases

theorem lookup_spec {n : NodeIndex} (inside : n < F.numNodes) (pointer : ¬ NonPointer s F n) :
    let tgt := F'.getMergeTarget n
    let tgtTgt := (rev (s.label tgt)).getD InvalidIndex
    (¬ tgtTgt > F'.numNodes ∧ tgtTgt = tgt) ∨
      (tgtTgt > F'.numNodes ∧ tgtTgt % F'.numNodes < F'.numNodes ∧
        OnlyAddress s F n (tgtTgt % F'.numNodes) ∧
        F'.getMergeTarget (tgtTgt % F'.numNodes) = tgtTgt % F'.numNodes) := by
  have target := target_inside merging.wf (merging.size.symm ▸ inside)
  have label : s.label (F'.getMergeTarget n) ≠ 0 := by
    rw [merging.same]
    exact pointer
  dsimp only
  rcases cases (s.label (F'.getMergeTarget n)) with same | ⟨o, low, root, key, equal, here⟩
  · left
    have found := merging.found _ (all _ (mem_keys_of_label label))
      (merging.size ▸ target) (merging.root n) label
    rw [same, found, Option.getD_some, target_idem merging.wf]
    exact ⟨Nat.not_lt.mpr target.le, rfl⟩
  · right
    have index : getAdrNodeIndex F' o % F'.numNodes = o := by
      unfold getAdrNodeIndex
      rw [Nat.add_mul_mod_self_right, Nat.mod_eq_of_lt low]
    have above : ∀ o N : Nat, o < N → o + 2 * N > N := by omega
    have samePlace : getAdrNodeIndex F' o = getAdrNodeIndex F o := by
      simp only [getAdrNodeIndex, merging.size]
    rw [here, Option.getD_some, index]
    refine ⟨above o F'.numNodes low, low, ⟨samePlace ▸ key, ?_⟩, root⟩
    rw [← merging.same, ← samePlace, equal]

/-- No assertion of the third loop fails. -/
theorem rewriteOne_spec {c : AndersConstraint}
    (valid : c.dest < F.numNodes ∧ c.src < F.numNodes)
    (root : F.getMergeTarget c.dest = c.dest) :
    ∃ new, rewriteOne s F' rev c = some new ∧ Rewritten s F F' new c ∧ ∀ e ∈ new, Fits F' e := by
  have dest := target_inside merging.wf (merging.size.symm ▸ valid.1)
  have src := target_inside merging.wf (merging.size.symm ▸ valid.2)
  have idem := target_idem merging.wf
  have pointer : ∀ n, s.label (F'.getMergeTarget n) = 0 ↔ NonPointer s F n := by
    intro n
    rw [merging.same]
    rfl
  have destPointer : s.label c.dest = 0 ↔ NonPointer s F c.dest := by
    unfold NonPointer
    rw [root]
  unfold rewriteOne Rewritten
  dsimp only
  by_cases zero : s.label c.dest = 0
  · exact ⟨[], if_pos zero, .inl (destPointer.mp zero), by simp⟩
  rw [if_neg zero]
  have isPointer : ¬ NonPointer s F c.dest := fun h => zero (destPointer.mpr h)
  cases c.type with
  | ADDR_OF =>
    refine ⟨_, rfl, .inr (by simp), ?_⟩
    simpa [Fits, dest, idem] using merging.size ▸ valid.2
  | LOAD =>
    dsimp only
    by_cases none : s.label (F'.getMergeTarget c.src) = 0
    · exact ⟨[], if_pos none, .inr (.inl ((pointer _).mp none)), by simp⟩
    rw [if_neg none]
    rcases lookup_spec merging all cases valid.2 (fun h => none ((pointer _).mpr h)) with
      ⟨low, same⟩ | ⟨high, inside, only, fixed⟩
    · refine ⟨_, (if_neg low).trans (if_pos same), ?_, ?_⟩
      · exact .inr (.inr (.inl (by simp)))
      · simp [Fits, dest, src, idem]
    · rw [if_pos high]
      by_cases itself : (rev (s.label (F'.getMergeTarget c.src))).getD InvalidIndex %
          F'.numNodes = F'.getMergeTarget c.dest
      · refine ⟨[], if_neg (not_not.mpr itself), ?_, by simp⟩
        exact .inr (.inr (.inr ⟨_, only, .inl (fixed.trans itself).symm⟩))
      · refine ⟨_, if_pos itself, ?_, ?_⟩
        · exact .inr (.inr (.inr ⟨_, only, .inr (by simp)⟩))
        · simp [Fits, dest, inside, idem]
  | STORE =>
    dsimp only
    rcases lookup_spec merging all cases valid.1 isPointer with
      ⟨low, same⟩ | ⟨high, inside, only, fixed⟩
    · refine ⟨_, (if_neg low).trans (if_pos same), ?_, ?_⟩
      · exact .inr (.inl (by simp))
      · simp [Fits, dest, src, idem]
    · rw [if_pos high]
      by_cases itself : (rev (s.label (F'.getMergeTarget c.dest))).getD InvalidIndex %
          F'.numNodes = F'.getMergeTarget c.src
      · refine ⟨[], if_neg (not_not.mpr itself), ?_, by simp⟩
        exact .inr (.inr ⟨_, only, .inl (fixed.trans itself)⟩)
      · refine ⟨_, if_pos itself, ?_, ?_⟩
        · exact .inr (.inr ⟨_, only, .inr (by simp)⟩)
        · simp [Fits, src, inside, fixed]
  | COPY =>
    dsimp only
    by_cases useless : F'.getMergeTarget c.dest = F'.getMergeTarget c.src
    · exact ⟨[], if_pos useless, .inr (.inr (.inl useless)), by simp⟩
    rw [if_neg useless]
    by_cases none : s.label (F'.getMergeTarget c.src) = 0
    · exact ⟨[], if_pos none, .inr (.inl ((pointer _).mp none)), by simp⟩
    rw [if_neg none]
    rcases lookup_spec merging all cases valid.2 (fun h => none ((pointer _).mpr h)) with
      ⟨low, same⟩ | ⟨high, inside, only, fixed⟩
    · refine ⟨_, if_neg low, ?_, ?_⟩
      · exact .inr (.inr (.inr (.inl (by simp))))
      · simp [Fits, dest, src, idem]
    · refine ⟨_, if_pos high, ?_, ?_⟩
      · exact .inr (.inr (.inr (.inr ⟨_, only, by simp⟩)))
      · simp [Fits, dest, inside, idem]

end Rewrite

/-- What has become of the factory and the constraints. -/
structure Result (s : State) (F : AndersNodeFactory) (cs : List AndersConstraint)
    (F' : AndersNodeFactory) (cs' : List AndersConstraint) : Prop where
  wf : F'.WellFormed
  size : F'.numNodes = F.numNodes
  coarser : ∀ a b, F.getMergeTarget a = F.getMergeTarget b →
    F'.getMergeTarget a = F'.getMergeTarget b
  rewritten : ∀ c ∈ cs, Rewritten s F F' cs' c
  fits : ∀ c ∈ cs', Fits F' c

theorem rewriteConstraint_spec (order : HashOrder) (wf : F.WellFormed)
    (valid : ValidConstraints F.numNodes cs)
    (roots : ∀ c ∈ cs, F.getMergeTarget c.dest = c.dest) (inside : KeysInside s F) :
    ∃ F' cs', rewriteConstraint order s F cs = some (F', cs') ∧ Result s F cs F' cs' := by
  obtain ⟨⟨F', named⟩, merges, seen, all, _, merging⟩ := mergeSameLabels_spec
    (l := order.arrange s.peLabel.keys) ((order.perm _).nodup_iff.mpr s.peLabel.nodup)
    (by simp) (merging_start (s := s) wf)
  dsimp only at merging
  have cases := collectAdrLabel_cases order (s := s) (F := F')
    (fun n hn => merging.size ▸ inside n hn) named
  dsimp only at cases
  have each := fun c hc => rewriteOne_spec merging
    (fun n hn => all n (order.mem_arrange.mpr hn)) cases (valid c hc) (roots c hc)
  let rev := (order.arrange s.peLabel.keys).foldl (collectAdrLabel s F') named
  obtain ⟨new, run, fits⟩ := foldlM_total (l := cs)
    (f := fun new c => (rewriteOne s F' rev c).map (new ++ ·)) (P := fun new => ∀ e ∈ new, Fits F' e)
    (fun c hc new kept => by
      obtain ⟨more, one, _, fit⟩ := each c hc
      refine ⟨new ++ more, by rw [one]; rfl, ?_⟩
      intro e he
      exact (List.mem_append.mp he).elim (kept e) (fit e)) (s := []) (by simp)
  refine ⟨F', uniquify new, ?_, merging.wf, merging.size, ?_, ?_, ?_⟩
  · unfold rewriteConstraint
    dsimp only
    rw [merges, Option.bind_eq_bind, Option.bind_some, run]
    rfl
  · intro a b same
    rw [merging.through a, merging.through b, same]
  · intro c hc
    obtain ⟨more, one, rewritten, _⟩ := each c hc
    apply rewritten_mono _ rewritten
    intro e he
    rw [mem_uniquify, foldlM_adds (R := fun new : List AndersConstraint => e ∈ new)
      (E := fun c => ∃ l, rewriteOne s F' rev c = some l ∧ e ∈ l) _ run]
    · exact .inr ⟨c, hc, more, one, he⟩
    · intro c _ t t' step
      obtain ⟨l, here, rfl⟩ := Option.map_eq_some_iff.mp step
      simp [here]
  · exact fun e he => fits e (mem_uniquify.mp he)

/-- The result is a rewriting in the sense of variable substitution. -/
theorem Result.rewrites {F' : AndersNodeFactory} {cs' : List AndersConstraint}
    (result : Result s F cs F' cs') : Rewrites (mergedSystem F cs) (constraintSystem cs')
      F'.getMergeTarget (NonPointer s F) (OnlyAddress s F) where
  addrOf d o c := result.rewritten _ c
  copy d o c := by
    rcases c with c | same
    · exact result.rewritten _ c
    · exact .inr (.inr (.inl (result.coarser d o same)))
  load d o c := result.rewritten _ c
  store d o c := result.rewritten _ c

end ProgramSlicer.Andersen.ConstraintOptimizer
