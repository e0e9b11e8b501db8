import Mathlib.Order.CompletePartialOrder
import ProgramSlicer.Andersen.ConstraintSolving

/-!
`AndersenAA::andersenAlias`, and what its answers say about concrete addresses.
An object node stands for a set of addresses: the universal object for all, the
null object for none, other objects for sets that are disjoint but may be large.
-/
namespace ProgramSlicer.Andersen
open AndersNodeFactory

inductive AliasResult where
  | NoAlias | MayAlias | MustAlias
deriving DecidableEq, Repr

/-- What the query reads of the analysis; `none` is `InvalidIndex` or a missing entry. -/
structure AndersenResult (V : Type) where
  nodeFactory : AndersNodeFactory
  getValueNodeFor : V → Option NodeIndex
  ptsGraph : NodeIndex → Option AndersPtsSet

namespace AndersenResult
variable {V : Type}

/-- `getMergeTarget(getValueNodeFor(v))` with its assertion. Path compression changes
    no later answer, so the factory is not returned. -/
def valueRep (anders : AndersenResult V) (v : V) : Option NodeIndex :=
  match anders.getValueNodeFor v with
  | some n => if n < anders.nodeFactory.numNodes then some (anders.nodeFactory.getMergeTarget n)
    else none
  | none => none

def isSetContainingOnly (set : AndersPtsSet) (i : NodeIndex) : Bool :=
  set.count = 1 && set.bits.head? = some i

def aliasOfSets (s1 s2 : AndersPtsSet) : AliasResult :=
  let isNull1 := isSetContainingOnly s1 NullObjectIndex
  let isNull2 := isSetContainingOnly s2 NullObjectIndex
  if isNull1 || isNull2 then .NoAlias
  else if s1.count = 1 && s2.count = 1 && s1.bits.head? = s2.bits.head? then .MustAlias
  else if s1.bits.any fun idx => idx ≠ NullObjectIndex && idx ∈ s2 then .MayAlias
  else .NoAlias

def andersenAlias (anders : AndersenResult V) (v1 v2 : V) : Option AliasResult := do
  let n1 ← anders.valueRep v1
  let n2 ← anders.valueRep v2
  if n1 = n2 then return .MustAlias
  match anders.ptsGraph n1, anders.ptsGraph n2 with
  | some s1, some s2 => return aliasOfSets s1 s2
  | _, _ => return .MayAlias

/-- The objects a pointer may point to; a missing entry is read as the empty set. -/
def pts (anders : AndersenResult V) (v : V) : Set NodeIndex :=
  {o | ∃ n set, anders.valueRep v = some n ∧ anders.ptsGraph n = some set ∧ o ∈ set}

end AndersenResult

/-- The addresses that the object nodes stand for. -/
structure Concretisation (Addr : Type) where
  addresses : NodeIndex → Set Addr
  universal : addresses UniversalObjIndex = Set.univ
  null : addresses NullObjectIndex = ∅
  disjoint : ∀ o o', o ≠ UniversalObjIndex → o' ≠ UniversalObjIndex → o ≠ o' →
    Disjoint (addresses o) (addresses o')

namespace AndersenResult
variable {V Addr : Type} {anders : AndersenResult V}

/-- Each pointer that is not null holds an address of an object in its set. -/
def Consistent (anders : AndersenResult V) (γ : Concretisation Addr) (state : V → Option Addr) :
    Prop :=
  ∀ v x, state v = some x → ∃ o ∈ anders.pts v, x ∈ γ.addresses o

/-- If the answer is NoAlias, the two pointers never hold the same address. -/
def NoAliasSound (anders : AndersenResult V) (v1 v2 : V) : Prop :=
  anders.andersenAlias v1 v2 = some .NoAlias →
    ∀ (Addr : Type) (γ : Concretisation Addr) (state : V → Option Addr),
      anders.Consistent γ state → ∀ x, ¬ (state v1 = some x ∧ state v2 = some x)

/-- If the answer is MustAlias, the two pointers hold the same address unless one is null. -/
def MustAliasSound (anders : AndersenResult V) (v1 v2 : V) : Prop :=
  anders.andersenAlias v1 v2 = some .MustAlias →
    ∀ (Addr : Type) (γ : Concretisation Addr) (state : V → Option Addr),
      anders.Consistent γ state → ∀ x y, state v1 = some x → state v2 = some y → x = y

theorem containingOnly_iff {set : AndersPtsSet} {i : NodeIndex} :
    isSetContainingOnly set i = true ↔ ∀ o, o ∈ set ↔ o = i := by
  simp only [isSetContainingOnly, Bool.and_eq_true, decide_eq_true_eq]
  constructor
  · intro ⟨one, first⟩ o
    obtain ⟨j, bits⟩ := List.length_eq_one_iff.mp one
    rw [bits] at first
    rw [← SparseBitVector.mem_bits, bits, ← Option.some.inj first]
    exact List.mem_singleton
  · intro only
    have bits : set.bits = [i] := by
      refine List.Pairwise.eq_of_mem_iff set.ascending (List.pairwise_singleton _ i) fun o => ?_
      rw [List.mem_singleton]
      exact only o
    simp [SparseBitVector.count, bits]

theorem same_singleton_iff {s1 s2 : AndersPtsSet} :
    (s1.count = 1 && s2.count = 1 && s1.bits.head? = s2.bits.head?) = true ↔
      ∃ i, (∀ o, o ∈ s1 ↔ o = i) ∧ ∀ o, o ∈ s2 ↔ o = i := by
  simp only [← containingOnly_iff, isSetContainingOnly, Bool.and_eq_true, decide_eq_true_eq]
  constructor
  · intro ⟨⟨one1, one2⟩, same⟩
    obtain ⟨i, bits⟩ := List.length_eq_one_iff.mp one1
    have first : s1.bits.head? = some i := by rw [bits]; rfl
    exact ⟨i, ⟨one1, first⟩, one2, same ▸ first⟩
  · intro ⟨i, ⟨one1, first1⟩, one2, first2⟩
    exact ⟨⟨one1, one2⟩, first1.trans first2.symm⟩

theorem noAlias_iff {s1 s2 : AndersPtsSet} :
    aliasOfSets s1 s2 = .NoAlias ↔ ∀ o ∈ s1, o ∈ s2 → o = NullObjectIndex := by
  unfold aliasOfSets
  dsimp only
  split
  · rename_i isNull
    rw [Bool.or_eq_true, containingOnly_iff, containingOnly_iff] at isNull
    simp only [true_iff]
    intro o one two
    exact isNull.elim (fun only => (only o).mp one) (fun only => (only o).mp two)
  · rename_i notNull
    rw [Bool.or_eq_true, containingOnly_iff, containingOnly_iff, not_or] at notNull
    split
    · rename_i same
      obtain ⟨i, only1, only2⟩ := same_singleton_iff.mp same
      simp only [reduceCtorEq, false_iff]
      intro apart
      have isNull := apart i ((only1 i).mpr rfl) ((only2 i).mpr rfl)
      exact notNull.1 (isNull ▸ only1)
    · split
      · rename_i common
        obtain ⟨o, one, two⟩ := List.any_eq_true.mp common
        simp only [Bool.and_eq_true, decide_eq_true_eq] at two
        simp only [reduceCtorEq, false_iff]
        exact fun apart => two.1 (apart o one two.2)
      · rename_i apart
        simp only [true_iff]
        intro o one two
        by_contra other
        exact apart (List.any_eq_true.mpr ⟨o, one, by simp [other, two]⟩)

theorem mustAlias_iff {s1 s2 : AndersPtsSet} :
    aliasOfSets s1 s2 = .MustAlias ↔
      ∃ i, i ≠ NullObjectIndex ∧ (∀ o, o ∈ s1 ↔ o = i) ∧ ∀ o, o ∈ s2 ↔ o = i := by
  unfold aliasOfSets
  dsimp only
  split
  · rename_i isNull
    rw [Bool.or_eq_true, containingOnly_iff, containingOnly_iff] at isNull
    simp only [reduceCtorEq, false_iff]
    rintro ⟨i, other, only1, only2⟩
    rcases isNull with null | null
    · exact other ((null i).mp ((only1 i).mpr rfl))
    · exact other ((null i).mp ((only2 i).mpr rfl))
  · rename_i notNull
    rw [Bool.or_eq_true, containingOnly_iff, containingOnly_iff, not_or] at notNull
    split
    · rename_i same
      obtain ⟨i, only1, only2⟩ := same_singleton_iff.mp same
      simp only [true_iff]
      exact ⟨i, fun isNull => notNull.1 (isNull ▸ only1), only1, only2⟩
    · rename_i different
      have none : ¬ ∃ i, i ≠ NullObjectIndex ∧ (∀ o, o ∈ s1 ↔ o = i) ∧ ∀ o, o ∈ s2 ↔ o = i :=
        fun ⟨i, _, only1, only2⟩ => different (same_singleton_iff.mpr ⟨i, only1, only2⟩)
      simp only [none, iff_false]
      split <;> simp

section Answers
variable {v1 v2 : V} {r1 r2 : NodeIndex}

theorem pts_eq (rep : anders.valueRep v1 = some r1) :
    anders.pts v1 = {o | ∃ set, anders.ptsGraph r1 = some set ∧ o ∈ set} := by
  unfold pts
  simp [rep]

theorem answers_noAlias_iff (rep1 : anders.valueRep v1 = some r1)
    (rep2 : anders.valueRep v2 = some r2) :
    anders.andersenAlias v1 v2 = some .NoAlias ↔
      r1 ≠ r2 ∧ (∃ s, anders.ptsGraph r1 = some s) ∧ (∃ s, anders.ptsGraph r2 = some s) ∧
        ∀ o ∈ anders.pts v1, o ∈ anders.pts v2 → o = NullObjectIndex := by
  rw [pts_eq rep1, pts_eq rep2]
  unfold andersenAlias
  simp only [rep1, rep2, Option.bind_eq_bind, Option.bind_some]
  by_cases same : r1 = r2
  · simp [same]
  · rw [if_neg same]
    cases anders.ptsGraph r1 <;> cases anders.ptsGraph r2 <;> simp [same, noAlias_iff]

theorem answers_mustAlias_iff (rep1 : anders.valueRep v1 = some r1)
    (rep2 : anders.valueRep v2 = some r2) :
    anders.andersenAlias v1 v2 = some .MustAlias ↔
      r1 = r2 ∨ ∃ i, i ≠ NullObjectIndex ∧ anders.pts v1 = {i} ∧ anders.pts v2 = {i} := by
  rw [pts_eq rep1, pts_eq rep2]
  unfold andersenAlias
  simp only [rep1, rep2, Option.bind_eq_bind, Option.bind_some, Set.ext_iff]
  by_cases same : r1 = r2
  · simp [same]
  · rw [if_neg same]
    cases anders.ptsGraph r1 <;> cases anders.ptsGraph r2 <;> simp [same, mustAlias_iff]

end Answers

section Sound
variable {v1 v2 : V} {r1 r2 : NodeIndex}

theorem not_null_of_address {γ : Concretisation Addr} {x : Addr} {o : NodeIndex}
    (inside : x ∈ γ.addresses o) : o ≠ NullObjectIndex := by
  intro isNull
  rw [isNull, γ.null] at inside
  exact inside

theorem consistent_pair (anders : AndersenResult V) (γ : Concretisation Addr) (x y : Addr)
    (one : ∃ o ∈ anders.pts v1, x ∈ γ.addresses o) (two : ∃ o ∈ anders.pts v2, y ∈ γ.addresses o)
    (agree : v1 = v2 → x = y) :
    ∃ state, anders.Consistent γ state ∧ state v1 = some x ∧ state v2 = some y := by
  classical
  refine ⟨fun v => if v = v1 then some x else if v = v2 then some y else none, ?_, by simp, ?_⟩
  · intro v z held
    dsimp only at held
    split at held
    · rename_i same
      rw [same, ← Option.some.inj held]
      exact one
    · split at held
      · rename_i same
        rw [same, ← Option.some.inj held]
        exact two
      · cases held
  · by_cases same : v2 = v1
    · simp [same, agree same.symm]
    · simp [same]

def onlyObject (Addr : Type) (o : NodeIndex) (notNull : o ≠ NullObjectIndex) :
    Concretisation Addr where
  addresses k := if k = UniversalObjIndex ∨ k = o then Set.univ else ∅
  universal := by simp
  null := by
    have notUniversal : NullObjectIndex ≠ UniversalObjIndex := by decide
    simp [notUniversal, notNull.symm]
  disjoint k l notK notL other := by
    by_cases here : k = o
    · have away : l ≠ o := fun same => other (here.trans same.symm)
      simp [notL, away]
    · simp [notK, here]

theorem addresses_possible {o : NodeIndex} (notNull : o ≠ NullObjectIndex)
    (mem1 : ∃ k ∈ anders.pts v1, k = UniversalObjIndex ∨ k = o)
    (mem2 : ∃ k ∈ anders.pts v2, k = UniversalObjIndex ∨ k = o) (x y : Addr)
    (agree : v1 = v2 → x = y) : ∃ (γ : Concretisation Addr) (state : V → Option Addr),
      anders.Consistent γ state ∧ state v1 = some x ∧ state v2 = some y := by
  obtain ⟨k, inK, stands⟩ := mem1
  obtain ⟨l, inL, stands'⟩ := mem2
  exact ⟨_, consistent_pair anders (onlyObject Addr o notNull) x y
    ⟨k, inK, by simp [onlyObject, stands]⟩ ⟨l, inL, by simp [onlyObject, stands']⟩ agree⟩

theorem entry_of_mem (rep : anders.valueRep v1 = some r1) {o : NodeIndex}
    (mem : o ∈ anders.pts v1) : ∃ s, anders.ptsGraph r1 = some s := by
  rw [pts_eq rep] at mem
  obtain ⟨s, entry, _⟩ := mem
  exact ⟨s, entry⟩

/-- A NoAlias answer is right exactly if, on sets with no object but null in common,
    the universal object never meets an object that is not null. -/
theorem noAlias_sound_iff (rep1 : anders.valueRep v1 = some r1)
    (rep2 : anders.valueRep v2 = some r2) :
    anders.NoAliasSound v1 v2 ↔
      r1 = r2 ∨ (∃ o ∈ anders.pts v1, o ∈ anders.pts v2 ∧ o ≠ NullObjectIndex) ∨
        ((UniversalObjIndex ∈ anders.pts v1 → ∀ o ∈ anders.pts v2, o = NullObjectIndex) ∧
          (UniversalObjIndex ∈ anders.pts v2 → ∀ o ∈ anders.pts v1, o = NullObjectIndex)) := by
  unfold NoAliasSound
  rw [answers_noAlias_iff rep1 rep2]
  constructor
  · intro sound
    by_contra fails
    simp only [not_or, not_exists, not_and, not_not] at fails
    obtain ⟨different, apart, unknown⟩ := fails
    -- one of the two may point anywhere, the other to some object o
    obtain ⟨o, notNull, mem1, mem2⟩ : ∃ o, o ≠ NullObjectIndex ∧
        (∃ k ∈ anders.pts v1, k = UniversalObjIndex ∨ k = o) ∧
        ∃ k ∈ anders.pts v2, k = UniversalObjIndex ∨ k = o := by
      by_cases first : UniversalObjIndex ∈ anders.pts v1 → ∀ o ∈ anders.pts v2, o = NullObjectIndex
      · have second := unknown first
        push Not at second
        obtain ⟨universal, o, mem, notNull⟩ := second
        exact ⟨o, notNull, ⟨o, mem, Or.inr rfl⟩, _, universal, Or.inl rfl⟩
      · push Not at first
        obtain ⟨universal, o, mem, notNull⟩ := first
        exact ⟨o, notNull, ⟨_, universal, Or.inl rfl⟩, o, mem, Or.inr rfl⟩
    obtain ⟨γ, state, consistent, one, two⟩ :=
      addresses_possible notNull mem1 mem2 () () (fun _ => rfl)
    obtain ⟨k, inK, _⟩ := mem1
    obtain ⟨l, inL, _⟩ := mem2
    exact sound ⟨different, entry_of_mem rep1 inK, entry_of_mem rep2 inL, apart⟩ Unit γ state
      consistent () ⟨one, two⟩
  · rintro safe ⟨different, _, _, apart⟩ Addr γ state consistent x ⟨one, two⟩
    obtain ⟨o, mem, inside⟩ := consistent v1 x one
    obtain ⟨o', mem', inside'⟩ := consistent v2 x two
    have notNull := not_null_of_address inside
    have notNull' := not_null_of_address inside'
    rcases safe with same | ⟨p, inOne, inTwo, other⟩ | ⟨first, second⟩
    · exact different same
    · exact other (apart p inOne inTwo)
    · have known : o ≠ UniversalObjIndex := fun universal =>
        notNull' (first (universal ▸ mem) o' mem')
      have known' : o' ≠ UniversalObjIndex := fun universal =>
        notNull (second (universal ▸ mem') o mem)
      by_cases same : o = o'
      · exact notNull (apart o mem (same ▸ mem'))
      · exact (Set.disjoint_left.mp (γ.disjoint o o' known known' same)) inside inside'

def twoPointers (set1 set2 : AndersPtsSet) : AndersenResult Nat where
  nodeFactory := .fresh 8
  getValueNodeFor
    | 0 => some 4
    | 1 => some 6
    | _ => none
  ptsGraph
    | 4 => some set1
    | 6 => some set2
    | _ => none

theorem twoPointers_reps (set1 set2 : AndersPtsSet) :
    (twoPointers set1 set2).valueRep 0 = some 4 ∧ (twoPointers set1 set2).valueRep 1 = some 6 := by
  constructor <;> rfl

theorem twoPointers_pts (set1 set2 : AndersPtsSet) :
    (twoPointers set1 set2).pts 0 = {o | o ∈ set1} ∧
      (twoPointers set1 set2).pts 1 = {o | o ∈ set2} := by
  obtain ⟨rep1, rep2⟩ := twoPointers_reps set1 set2
  rw [pts_eq rep1, pts_eq rep2]
  simp [twoPointers]

theorem disjointSets_noAlias_sound :
    (twoPointers ⟨[3, 5], by decide⟩ ⟨[7], by decide⟩).NoAliasSound 0 1 := by
  obtain ⟨rep1, rep2⟩ := twoPointers_reps ⟨[3, 5], by decide⟩ ⟨[7], by decide⟩
  obtain ⟨pts1, pts2⟩ := twoPointers_pts ⟨[3, 5], by decide⟩ ⟨[7], by decide⟩
  refine (noAlias_sound_iff rep1 rep2).mpr (Or.inr (Or.inr ⟨fun unknown => ?_, fun unknown => ?_⟩))
  · rw [pts1] at unknown
    exact absurd unknown (by decide)
  · rw [pts2] at unknown
    exact absurd unknown (by decide)

/-- The first pointer may point anywhere, the second to one object: the answer is NoAlias. -/
theorem unknownTarget_noAlias :
    (twoPointers ⟨[1], by decide⟩ ⟨[5], by decide⟩).andersenAlias 0 1 = some .NoAlias ∧
      ¬ (twoPointers ⟨[1], by decide⟩ ⟨[5], by decide⟩).NoAliasSound 0 1 := by
  have answer : (twoPointers ⟨[1], by decide⟩ ⟨[5], by decide⟩).andersenAlias 0 1 =
    some .NoAlias := by decide
  refine ⟨answer, fun sound => ?_⟩
  obtain ⟨pts1, pts2⟩ := twoPointers_pts ⟨[1], by decide⟩ ⟨[5], by decide⟩
  have mem1 : 1 ∈ (twoPointers ⟨[1], by decide⟩ ⟨[5], by decide⟩).pts 0 := by
    rw [pts1]
    exact List.mem_singleton_self 1
  have mem2 : 5 ∈ (twoPointers ⟨[1], by decide⟩ ⟨[5], by decide⟩).pts 1 := by
    rw [pts2]
    exact List.mem_singleton_self 5
  obtain ⟨γ, state, consistent, one, two⟩ := addresses_possible (show 5 ≠ NullObjectIndex by decide)
    ⟨1, mem1, Or.inl rfl⟩ ⟨5, mem2, Or.inr rfl⟩ () () (fun _ => rfl)
  exact sound answer Unit γ state consistent () ⟨one, two⟩

/-- A MustAlias answer is right exactly for one pointer asked twice, or where it is not
    given for a pointer that may hold the address of an object. -/
theorem mustAlias_sound_iff (rep1 : anders.valueRep v1 = some r1)
    (rep2 : anders.valueRep v2 = some r2) :
    anders.MustAliasSound v1 v2 ↔
      v1 = v2 ∨ ((r1 = r2 → ∀ o ∈ anders.pts v1, o = NullObjectIndex) ∧
        ∀ o, o ≠ NullObjectIndex → ¬ (anders.pts v1 = {o} ∧ anders.pts v2 = {o})) := by
  have shared : r1 = r2 → anders.pts v1 = anders.pts v2 := fun same => by
    rw [pts_eq rep1, pts_eq rep2, same]
  unfold MustAliasSound
  rw [answers_mustAlias_iff rep1 rep2]
  constructor
  · intro sound
    by_contra fails
    simp only [not_or, not_and_or, not_forall, not_not] at fails
    obtain ⟨distinct, unequal⟩ := fails
    -- some object may hold the addresses of both
    obtain ⟨answer, o, notNull, mem1, mem2⟩ : (r1 = r2 ∨ ∃ i, i ≠ NullObjectIndex ∧
        anders.pts v1 = {i} ∧ anders.pts v2 = {i}) ∧
        ∃ o, o ≠ NullObjectIndex ∧ o ∈ anders.pts v1 ∧ o ∈ anders.pts v2 := by
      rcases unequal with ⟨same, o, mem, notNull⟩ | ⟨o, notNull, only1, only2⟩
      · exact ⟨Or.inl same, o, notNull, mem, shared same ▸ mem⟩
      · exact ⟨Or.inr ⟨o, notNull, only1, only2⟩, o, notNull, by simp [only1], by simp [only2]⟩
    obtain ⟨γ, state, consistent, one, two⟩ := addresses_possible notNull
      ⟨o, mem1, Or.inr rfl⟩ ⟨o, mem2, Or.inr rfl⟩ true false (fun same => absurd same distinct)
    exact absurd (sound answer Bool γ state consistent true false one two) (by decide)
  · rintro safe answer Addr γ state consistent x y one two
    rcases safe with rfl | ⟨merged, single⟩
    · exact Option.some.inj (one.symm.trans two)
    · rcases answer with same | ⟨o, notNull, only1, only2⟩
      · obtain ⟨o, mem, inside⟩ := consistent v1 x one
        exact absurd (merged same o mem) (not_null_of_address inside)
      · exact absurd ⟨only1, only2⟩ (single o notNull)

def mergedNulls : AndersenResult Nat :=
  { twoPointers ⟨[3], by decide⟩ ⟨[3], by decide⟩ with
    nodeFactory := ((AndersNodeFactory.fresh 8).mergeNode 4 6).get (by decide) }

theorem mergedNulls_mustAlias_sound :
    mergedNulls.andersenAlias 0 1 = some .MustAlias ∧ mergedNulls.MustAliasSound 0 1 := by
  have rep1 : mergedNulls.valueRep 0 = some 4 := by decide
  have rep2 : mergedNulls.valueRep 1 = some 4 := by decide
  have onlyNull : ∀ o ∈ mergedNulls.pts 0, o = NullObjectIndex := by
    rw [pts_eq rep1]
    rintro o ⟨set, found, mem⟩
    obtain rfl := Option.some.inj found
    exact List.mem_singleton.mp mem
  refine ⟨by decide, (mustAlias_sound_iff rep1 rep2).mpr (Or.inr ⟨fun _ => onlyNull, ?_⟩)⟩
  rintro o notNull ⟨only, _⟩
  exact notNull (onlyNull o (only ▸ Set.mem_singleton o))

/-- Both pointers may point into one array, at different elements: the answer is MustAlias. -/
theorem sameArray_mustAlias :
    (twoPointers ⟨[5], by decide⟩ ⟨[5], by decide⟩).andersenAlias 0 1 = some .MustAlias ∧
      ¬ (twoPointers ⟨[5], by decide⟩ ⟨[5], by decide⟩).MustAliasSound 0 1 := by
  have answer : (twoPointers ⟨[5], by decide⟩ ⟨[5], by decide⟩).andersenAlias 0 1 =
    some .MustAlias := by decide
  refine ⟨answer, fun sound => ?_⟩
  obtain ⟨pts1, pts2⟩ := twoPointers_pts ⟨[5], by decide⟩ ⟨[5], by decide⟩
  have mem1 : 5 ∈ (twoPointers ⟨[5], by decide⟩ ⟨[5], by decide⟩).pts 0 := by
    rw [pts1]
    exact List.mem_singleton_self 5
  have mem2 : 5 ∈ (twoPointers ⟨[5], by decide⟩ ⟨[5], by decide⟩).pts 1 := by
    rw [pts2]
    exact List.mem_singleton_self 5
  obtain ⟨γ, state, consistent, one, two⟩ := addresses_possible (show 5 ≠ NullObjectIndex by decide)
    ⟨5, mem1, Or.inr rfl⟩ ⟨5, mem2, Or.inr rfl⟩ true false (fun same => absurd same (by decide))
  exact absurd (sound answer Bool γ state consistent true false one two) (by decide)

end Sound

end AndersenResult
end ProgramSlicer.Andersen
