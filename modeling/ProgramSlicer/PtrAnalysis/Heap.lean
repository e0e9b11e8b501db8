import Mathlib.Data.Finset.Card
import Mathlib.Order.Interval.Finset.Nat
import ProgramSlicer.Library.BinaryHeap

/-!
The heap of the field-sensitive pointer analysis: keys and values in two vectors that begin at
position 1, and the position of each value, so that the key of a value can be changed. What
it is for is a finite map from values to keys from which an entry of least key can be taken.
-/
namespace ProgramSlicer.PtrAnalysis
open BinaryHeap

/-- `idxv` is `none` for `NONE`. A failed assertion is `none`. -/
structure Heap where
  hk : Nat → Nat
  hv : Nat → Nat
  maxv : Nat
  nv : Nat
  idxv : Nat → Option Nat

namespace Heap

/-- The memory for `idxv` is `(mv+1)*4` bytes, computed in 32 bits. -/
def create (mv : Nat) : Option Heap :=
  if (mv + 1) * 4 < 2 ^ 32 then some ⟨fun _ => 0, fun _ => 0, mv, 0, fun _ => none⟩ else none

def exchangeAt (h : Heap) (i j : Nat) : Heap :=
  { h with
    hk := exchange h.hk i j
    hv := exchange h.hv i j
    idxv := Function.update (Function.update h.idxv (h.hv i) (some j)) (h.hv j) (some i) }

def percUp : Nat → Nat → Heap → Heap
  | 0, _, h => h
  | fuel + 1, i, h =>
    if i / 2 = 0 then h
    else if h.hk (i / 2) ≤ h.hk i then h
    else percUp fuel (i / 2) (h.exchangeAt i (i / 2))

def smallerChild (h : Heap) (i : Nat) : Nat :=
  if i * 2 < h.nv ∧ h.hk (i * 2 + 1) < h.hk (i * 2) then i * 2 + 1 else i * 2

/-- The fuel is no less than the number of positions below. -/
def percDn : Nat → Nat → Heap → Heap
  | 0, _, h => h
  | fuel + 1, i, h =>
    if i * 2 > h.nv then h
    else if h.hk i ≤ h.hk (h.smallerChild i) then h
    else percDn fuel (h.smallerChild i) (h.exchangeAt i (h.smallerChild i))

/-- Insert a value or change its key; true if the value already existed. -/
def push (h : Heap) (v k : Nat) : Option (Bool × Heap) :=
  if v ≤ h.maxv then
    match h.idxv v with
    | none =>
      let n := h.nv + 1
      some (false, percUp n n { h with
        hk := Function.update h.hk n k
        hv := Function.update h.hv n v
        nv := n
        idxv := Function.update h.idxv v (some n) })
    | some i =>
      if i ≤ h.nv then
        let pk := h.hk i
        if k = pk then some (true, h)
        else
          let changed := { h with hk := Function.update h.hk i k }
          some (true, if k < pk then percUp i i changed else percDn h.nv i changed)
      else none
  else none

def pop (h : Heap) : Option (Nat × Nat × Heap) :=
  if h.nv = 0 then none
  else
    let n := h.nv - 1
    let cleared := { h with nv := n, idxv := Function.update h.idxv (h.hv 1) none }
    let rest :=
      if n = 0 then cleared
      else percDn n 1 { cleared with
        hk := Function.update h.hk 1 (h.hk (n + 1))
        hv := Function.update h.hv 1 (h.hv (n + 1))
        idxv := Function.update cleared.idxv (h.hv (n + 1)) (some 1) }
    some (h.hv 1, h.hk 1, rest)

def size (h : Heap) : Nat := h.nv

def empty (h : Heap) : Bool := h.nv == 0

/-- What the heap stands for. -/
def keyOf (h : Heap) (v : Nat) : Option Nat := (h.idxv v).map h.hk

structure Tabled (h : Heap) : Prop where
  indexed : Indexed h.nv h.hv h.idxv
  allowed : ∀ i, 1 ≤ i → i ≤ h.nv → h.hv i ≤ h.maxv

structure WellFormed (h : Heap) : Prop extends Tabled h where
  ordered : Ordered h.nv h.hk

variable {h : Heap} {i j v k : Nat}

/-! ### Moves -/

structure Moved (h h' : Heap) : Prop where
  tabled : h'.Tabled
  maxv : h'.maxv = h.maxv
  nv : h'.nv = h.nv
  keyOf : h'.keyOf = h.keyOf

theorem moved_refl (tabled : h.Tabled) : Moved h h := ⟨tabled, rfl, rfl, rfl⟩

theorem moved_trans {h' h'' : Heap} (one : Moved h h') (two : Moved h' h'') : Moved h h'' :=
  ⟨two.tabled, two.maxv.trans one.maxv, two.nv.trans one.nv, two.keyOf.trans one.keyOf⟩

theorem moved_exchange (tabled : h.Tabled) (lowI : 1 ≤ i) (highI : i ≤ h.nv) (lowJ : 1 ≤ j)
    (highJ : j ≤ h.nv) (apart : i ≠ j) : Moved h (h.exchangeAt i j) := by
  have table := tabled.indexed.exchange lowI highI lowJ highJ apart
  refine ⟨⟨table, ?_⟩, rfl, rfl, ?_⟩
  · intro x low high
    show exchange h.hv i j x ≤ h.maxv
    by_cases isI : x = i
    · rw [isI, exchange_left apart]
      exact tabled.allowed j lowJ highJ
    · by_cases isJ : x = j
      · rw [isJ, exchange_right]
        exact tabled.allowed i lowI highI
      · rw [exchange_other isI isJ]
        exact tabled.allowed x low high
  · funext v
    show (Function.update (Function.update h.idxv (h.hv i) (some j)) (h.hv j) (some i) v).map
      (exchange h.hk i j) = (h.idxv v).map h.hk
    by_cases isJ : v = h.hv j
    · rw [isJ, Function.update_self, tabled.indexed.at lowJ highJ]
      exact congrArg some (exchange_left apart)
    · rw [Function.update_of_ne isJ]
      by_cases isI : v = h.hv i
      · rw [isI, Function.update_self, tabled.indexed.at lowI highI]
        exact congrArg some exchange_right
      · rw [Function.update_of_ne isI]
        cases found : h.idxv v with
        | none => rfl
        | some x =>
          obtain ⟨_, _, there⟩ := (tabled.indexed v x).mp found
          have notI : x ≠ i := fun same => isI (same ▸ there.symm)
          have notJ : x ≠ j := fun same => isJ (same ▸ there.symm)
          exact congrArg some (exchange_other notI notJ)

theorem percUp_spec {fuel : Nat} (tabled : h.Tabled) (low : 1 ≤ i) (high : i ≤ h.nv)
    (enough : i ≤ fuel) (up : UpAt h.nv h.hk i) :
    Moved h (percUp fuel i h) ∧ (percUp fuel i h).WellFormed := by
  induction fuel generalizing i h with
  | zero => omega
  | succ fuel ih =>
    unfold percUp
    split
    · have stop : 2 ≤ i → h.hk (i / 2) ≤ h.hk i := by omega
      exact ⟨moved_refl tabled, tabled, up.done stop⟩
    · split
      · rename_i inOrder
        exact ⟨moved_refl tabled, tabled, up.done fun _ => inOrder⟩
      · rename_i notRoot above
        have moved := moved_exchange tabled low high (j := i / 2) (by omega) (by omega) (by omega)
        have next := up.exchange (by omega) high (Nat.le_of_not_le above)
        obtain ⟨more, done⟩ := ih moved.tabled (by omega) (by rw [moved.nv]; omega) (by omega) next
        exact ⟨moved_trans moved more, done⟩

theorem smallerChild_spec (inside : i * 2 ≤ h.nv) : h.smallerChild i ≤ h.nv ∧
    h.smallerChild i / 2 = i ∧ i * 2 ≤ h.smallerChild i ∧
    ∀ j, 2 ≤ j → j ≤ h.nv → j / 2 = i → h.hk (h.smallerChild i) ≤ h.hk j := by
  unfold smallerChild
  split
  · rename_i right
    refine ⟨by omega, by omega, by omega, fun j _ _ under => ?_⟩
    have cases : j = i * 2 ∨ j = i * 2 + 1 := by omega
    rcases cases with rfl | rfl
    · exact right.2.le
    · exact le_rfl
  · rename_i left
    refine ⟨inside, by omega, le_rfl, fun j _ high under => ?_⟩
    have cases : j = i * 2 ∨ j = i * 2 + 1 := by omega
    rcases cases with rfl | rfl
    · exact le_rfl
    · exact Nat.le_of_not_lt fun smaller => left ⟨by omega, smaller⟩

theorem percDn_spec {fuel : Nat} (tabled : h.Tabled) (low : 1 ≤ i) (high : i ≤ h.nv)
    (enough : h.nv < i + fuel) (down : DownAt h.nv h.hk i) :
    Moved h (percDn fuel i h) ∧ (percDn fuel i h).WellFormed := by
  induction fuel generalizing i h with
  | zero => omega
  | succ fuel ih =>
    unfold percDn
    split
    · have leaf : ∀ j, 2 ≤ j → j ≤ h.nv → j / 2 = i → h.hk i ≤ h.hk j := by
        intro j _ _ under
        omega
      exact ⟨moved_refl tabled, tabled, down.done leaf⟩
    · rename_i inside
      obtain ⟨highC, child, below, least⟩ := smallerChild_spec (Nat.le_of_not_lt inside)
      split
      · rename_i inOrder
        exact ⟨moved_refl tabled, tabled,
          down.done fun j lowJ highJ under => inOrder.trans (least j lowJ highJ under)⟩
      · rename_i smaller
        have moved := moved_exchange tabled low high (by omega) highC (by omega)
        have next := down.exchange (by omega) highC child least (Nat.le_of_not_le smaller)
        obtain ⟨more, done⟩ := ih moved.tabled (by omega) (by rw [moved.nv]; exact highC)
          (by rw [moved.nv]; omega) next
        exact ⟨moved_trans moved more, done⟩

/-! ### Operations -/

theorem keyOf_none : h.keyOf v = none ↔ h.idxv v = none := by
  unfold keyOf
  rw [Option.map_eq_none_iff]

theorem keyOf_some (tabled : h.Tabled) : h.keyOf v = some k ↔
    ∃ i, 1 ≤ i ∧ i ≤ h.nv ∧ h.hv i = v ∧ h.hk i = k := by
  unfold keyOf
  rw [Option.map_eq_some_iff]
  constructor
  · rintro ⟨i, found, key⟩
    obtain ⟨low, high, there⟩ := (tabled.indexed v i).mp found
    exact ⟨i, low, high, there, key⟩
  · rintro ⟨i, low, high, there, key⟩
    exact ⟨i, (tabled.indexed v i).mpr ⟨low, high, there⟩, key⟩

theorem allowed_of_keyOf (tabled : h.Tabled) (found : h.keyOf v = some k) : v ≤ h.maxv := by
  obtain ⟨i, low, high, rfl, _⟩ := (keyOf_some tabled).mp found
  exact tabled.allowed i low high

theorem create_spec {mv : Nat} (made : create mv = some h) :
    h.WellFormed ∧ h.maxv = mv ∧ ∀ v, h.keyOf v = none := by
  obtain ⟨_, same⟩ := Option.ite_none_right_eq_some.mp made
  rw [← Option.some.inj same]
  refine ⟨⟨⟨fun v i => ?_, fun i low high => ?_⟩, fun j low high => ?_⟩, rfl, fun v => rfl⟩
  · exact ⟨nofun, fun ⟨low, high, _⟩ => absurd (low.trans high) (Nat.not_succ_le_zero 0)⟩
  · exact absurd (low.trans high) (Nat.not_succ_le_zero 0)
  · exact absurd (low.trans high) (Nat.not_succ_le_zero 1)

theorem tabled_changed (tabled : h.Tabled) (found : h.idxv v = some i) :
    ({ h with hk := Function.update h.hk i k } : Heap).Tabled ∧
      ({ h with hk := Function.update h.hk i k } : Heap).keyOf =
        Function.update h.keyOf v (some k) := by
  refine ⟨⟨tabled.indexed, tabled.allowed⟩, ?_⟩
  funext w
  show (h.idxv w).map (Function.update h.hk i k) = _
  by_cases same : w = v
  · rw [same, found, Function.update_self]
    exact congrArg some (Function.update_self ..)
  · rw [Function.update_of_ne same]
    unfold keyOf
    cases other : h.idxv w with
    | none => rfl
    | some j =>
      have apart : j ≠ i := by
        rintro rfl
        exact same (((tabled.indexed w j).mp other).2.2.symm.trans
          ((tabled.indexed v j).mp found).2.2)
      exact congrArg some (Function.update_of_ne apart _ _)

theorem tabled_appended (tabled : h.Tabled) (new : h.idxv v = none) (allowed : v ≤ h.maxv) :
    let more : Heap := { h with
      hk := Function.update h.hk (h.nv + 1) k
      hv := Function.update h.hv (h.nv + 1) v
      nv := h.nv + 1
      idxv := Function.update h.idxv v (some (h.nv + 1)) }
    more.Tabled ∧ more.keyOf = Function.update h.keyOf v (some k) := by
  refine ⟨⟨tabled.indexed.append new, fun i low high => ?_⟩, ?_⟩
  · show Function.update h.hv (h.nv + 1) v i ≤ h.maxv
    by_cases last : i = h.nv + 1
    · rw [last, Function.update_self]
      exact allowed
    · rw [Function.update_of_ne last]
      have high : i ≤ h.nv + 1 := high
      exact tabled.allowed i low (by omega)
  · funext w
    show (Function.update h.idxv v (some (h.nv + 1)) w).map (Function.update h.hk (h.nv + 1) k) = _
    by_cases same : w = v
    · rw [same, Function.update_self, Function.update_self]
      exact congrArg some (Function.update_self ..)
    · rw [Function.update_of_ne same, Function.update_of_ne same]
      unfold keyOf
      cases other : h.idxv w with
      | none => rfl
      | some j =>
        have low := ((tabled.indexed w j).mp other).2.1
        exact congrArg some (Function.update_of_ne (by omega) _ _)

theorem push_spec (wf : h.WellFormed) (allowed : v ≤ h.maxv) (k : Nat) :
    ∃ h', h.push v k = some ((h.keyOf v).isSome, h') ∧ h'.WellFormed ∧ h'.maxv = h.maxv ∧
      h'.keyOf = Function.update h.keyOf v (some k) := by
  unfold push
  rw [if_pos allowed]
  cases found : h.idxv v with
  | none =>
    obtain ⟨tabled, keys⟩ := tabled_appended (k := k) wf.toTabled found allowed
    obtain ⟨moved, done⟩ := percUp_spec (i := h.nv + 1) tabled (by omega) (Nat.le_refl _)
      (Nat.le_refl (h.nv + 1)) (upAt_append wf.ordered)
    refine ⟨_, ?_, done, moved.maxv, moved.keyOf.trans keys⟩
    rw [keyOf_none.mpr found]
    rfl
  | some i =>
    obtain ⟨low, high, _⟩ := (wf.indexed v i).mp found
    have there : h.keyOf v = some (h.hk i) := by
      unfold keyOf
      rw [found]
      rfl
    obtain ⟨tabled, keys⟩ := tabled_changed (k := k) wf.toTabled found
    dsimp only
    rw [if_pos high, there]
    by_cases same : k = h.hk i
    · rw [if_pos same]
      refine ⟨h, rfl, wf, rfl, ?_⟩
      rw [same, ← there, Function.update_eq_self]
    · rw [if_neg same]
      by_cases lower : k < h.hk i
      · obtain ⟨moved, done⟩ := percUp_spec tabled low high (Nat.le_refl i)
          (upAt_lower wf.ordered high lower.le)
        rw [if_pos lower]
        exact ⟨_, rfl, done, moved.maxv, moved.keyOf.trans keys⟩
      · obtain ⟨moved, done⟩ := percDn_spec tabled low high
          (show h.nv < i + h.nv by omega) (downAt_raise wf.ordered high (Nat.le_of_not_lt lower))
        rw [if_neg lower]
        exact ⟨_, rfl, done, moved.maxv, moved.keyOf.trans keys⟩

theorem root_least (wf : h.WellFormed) (found : h.keyOf v = some k) : h.hk 1 ≤ k := by
  obtain ⟨i, low, high, _, rfl⟩ := (keyOf_some wf.toTabled).mp found
  exact root_le wf.ordered i low high

theorem size_zero (tabled : h.Tabled) : h.size = 0 ↔ ∀ v, h.keyOf v = none := by
  unfold size
  constructor
  · intro empty v
    refine Option.eq_none_iff_forall_ne_some.mpr fun k found => ?_
    obtain ⟨i, low, high, _⟩ := (keyOf_some tabled).mp found
    omega
  · intro none
    by_contra filled
    have first := (keyOf_some tabled).mpr ⟨1, Nat.le_refl 1, by omega, rfl, rfl⟩
    rw [none] at first
    cases first

theorem pop_none : h.pop = none ↔ h.size = 0 := by
  unfold pop size
  split
  · rename_i empty
    exact iff_of_true rfl empty
  · rename_i filled
    exact iff_of_false nofun filled

theorem tabled_emptied (tabled : h.Tabled) (one : h.nv = 1) :
    let less : Heap := { h with nv := 0, idxv := Function.update h.idxv (h.hv 1) none }
    less.Tabled ∧ less.keyOf = Function.update h.keyOf (h.hv 1) none := by
  have others : ∀ w, w ≠ h.hv 1 → h.idxv w = none := by
    intro w other
    refine Option.eq_none_iff_forall_ne_some.mpr fun j found => ?_
    obtain ⟨low, high, there⟩ := (tabled.indexed w j).mp found
    have isFirst : j = 1 := by omega
    exact other (isFirst ▸ there.symm)
  refine ⟨⟨fun w j => ⟨fun found => ?_, fun ⟨low, high, _⟩ => ?_⟩, fun j low high => ?_⟩, ?_⟩
  · have found : Function.update h.idxv (h.hv 1) none w = some j := found
    by_cases same : w = h.hv 1
    · rw [same, Function.update_self] at found
      cases found
    · rw [Function.update_of_ne same, others w same] at found
      cases found
  · exact absurd (low.trans high) (Nat.not_succ_le_zero 0)
  · exact absurd (low.trans high) (Nat.not_succ_le_zero 0)
  · funext w
    show (Function.update h.idxv (h.hv 1) none w).map h.hk = _
    by_cases same : w = h.hv 1
    · rw [same, Function.update_self, Function.update_self]
      rfl
    · rw [Function.update_of_ne same, Function.update_of_ne same]
      rfl

theorem tabled_replaced {n : Nat} (tabled : h.Tabled) (size : h.nv = n + 1) (more : 1 ≤ n) :
    let less : Heap := { h with
      nv := n
      hk := Function.update h.hk 1 (h.hk (n + 1))
      hv := Function.update h.hv 1 (h.hv (n + 1))
      idxv := Function.update (Function.update h.idxv (h.hv 1) none) (h.hv (n + 1)) (some 1) }
    less.Tabled ∧ less.keyOf = Function.update h.keyOf (h.hv 1) none := by
  have indexed : Indexed (n + 1) h.hv h.idxv := size ▸ tabled.indexed
  have isRoot := indexed.at (Nat.le_refl 1) (by omega)
  have isLast := indexed.at (i := n + 1) (by omega) (Nat.le_refl _)
  have apart : h.hv 1 ≠ h.hv (n + 1) := by
    intro same
    rw [same, isLast, Option.some.injEq] at isRoot
    omega
  refine ⟨⟨indexed.replaceRoot more, fun i low high => ?_⟩, ?_⟩
  · show Function.update h.hv 1 (h.hv (n + 1)) i ≤ h.maxv
    have high : i ≤ n := high
    by_cases first : i = 1
    · rw [first, Function.update_self]
      exact tabled.allowed (n + 1) (by omega) (by omega)
    · rw [Function.update_of_ne first]
      exact tabled.allowed i low (by omega)
  · funext w
    show (Function.update (Function.update h.idxv (h.hv 1) none) (h.hv (n + 1)) (some 1) w).map
      (Function.update h.hk 1 (h.hk (n + 1))) = _
    by_cases last : w = h.hv (n + 1)
    · rw [last, Function.update_self, Function.update_of_ne apart.symm]
      unfold keyOf
      rw [isLast]
      exact congrArg some (Function.update_self ..)
    · rw [Function.update_of_ne last]
      by_cases root : w = h.hv 1
      · rw [root, Function.update_self, Function.update_self]
        rfl
      · rw [Function.update_of_ne root, Function.update_of_ne root]
        unfold keyOf
        cases found : h.idxv w with
        | none => rfl
        | some j =>
          have notFirst : j ≠ 1 := by
            rintro rfl
            exact root ((indexed w 1).mp found).2.2.symm
          exact congrArg some (Function.update_of_ne notFirst _ _)

theorem pop_spec {h' : Heap} (wf : h.WellFormed) (popped : h.pop = some (v, k, h')) :
    h.keyOf v = some k ∧ (∀ w l, h.keyOf w = some l → k ≤ l) ∧ h'.WellFormed ∧
      h'.maxv = h.maxv ∧ h'.nv + 1 = h.nv ∧ h'.keyOf = Function.update h.keyOf v none := by
  obtain ⟨filled, same⟩ := Option.ite_none_left_eq_some.mp popped
  simp only [Option.some.injEq, Prod.mk.injEq] at same
  obtain ⟨rfl, rfl, rest⟩ := same
  have first : h.keyOf (h.hv 1) = some (h.hk 1) :=
    (keyOf_some wf.toTabled).mpr ⟨1, Nat.le_refl 1, by omega, rfl, rfl⟩
  refine ⟨first, fun w l => root_least wf, ?_⟩
  obtain ⟨n, size⟩ : ∃ n, h.nv = n + 1 := ⟨h.nv - 1, by omega⟩
  have last : h.nv - 1 = n := by omega
  rw [last] at rest
  by_cases empty : n = 0
  · subst empty
    rw [if_pos rfl] at rest
    obtain ⟨tabled, keys⟩ := tabled_emptied wf.toTabled size
    rw [← rest]
    exact ⟨⟨tabled, fun j low high => absurd (low.trans high) (Nat.not_succ_le_zero 1)⟩, rfl,
      size.symm, keys⟩
  · rw [if_neg empty] at rest
    obtain ⟨tabled, keys⟩ := tabled_replaced wf.toTabled size (by omega)
    obtain ⟨moved, done⟩ := percDn_spec tabled (Nat.le_refl 1) (show 1 ≤ n by omega)
      (show n < 1 + n by omega) (downAt_root (size ▸ wf.ordered))
    rw [← rest]
    exact ⟨done, moved.maxv, by rw [moved.nv, size], moved.keyOf.trans keys⟩

theorem size_eq (tabled : h.Tabled) :
    h.size = ((Finset.range (h.maxv + 1)).filter fun v => (h.keyOf v).isSome).card := by
  have injective : Set.InjOn h.hv (Finset.Icc 1 h.nv : Finset Nat) := by
    intro i hi j hj same
    rw [Finset.coe_Icc] at hi hj
    have first := tabled.indexed.at hi.1 hi.2
    rw [same, tabled.indexed.at hj.1 hj.2] at first
    exact (Option.some.inj first).symm
  have all : (Finset.Icc 1 h.nv).image h.hv =
      (Finset.range (h.maxv + 1)).filter fun v => (h.keyOf v).isSome := by
    ext v
    rw [Finset.mem_image, Finset.mem_filter, Finset.mem_range, Option.isSome_iff_exists]
    constructor
    · rintro ⟨i, inside, rfl⟩
      obtain ⟨low, high⟩ := Finset.mem_Icc.mp inside
      exact ⟨Nat.lt_succ_of_le (tabled.allowed i low high), h.hk i,
        (keyOf_some tabled).mpr ⟨i, low, high, rfl, rfl⟩⟩
    · rintro ⟨_, k, found⟩
      obtain ⟨i, low, high, there, _⟩ := (keyOf_some tabled).mp found
      exact ⟨i, Finset.mem_Icc.mpr ⟨low, high⟩, there⟩
  rw [← all, Finset.card_image_of_injOn injective, Nat.card_Icc]
  rfl

theorem size_le (tabled : h.Tabled) : h.size ≤ h.maxv + 1 := by
  rw [size_eq tabled]
  exact (Finset.card_filter_le _ _).trans_eq (Finset.card_range _)

/-! ### Runs -/

inductive Command
  | push (v k : Nat)
  | pop

inductive Answer
  | pushed (existed : Bool)
  | popped (v k : Nat)
deriving DecidableEq

def exec (h : Heap) : Command → Option (Answer × Heap)
  | .push v k => (h.push v k).map fun r => (.pushed r.1, r.2)
  | .pop => h.pop.map fun r => (.popped r.1 r.2.1, r.2.2)

def execAll : Heap → List Command → Option (List Answer × Heap)
  | h, [] => some ([], h)
  | h, c :: cs => do
    let (a, h) ← h.exec c
    let (answers, h) ← h.execAll cs
    some (a :: answers, h)

/-- The answers that finite maps give. Among several values of least key any may be taken. -/
inductive Answers : (Nat → Option Nat) → Command → Answer → (Nat → Option Nat) → Prop
  | push {keys v k} : Answers keys (.push v k) (.pushed (keys v).isSome)
      (Function.update keys v (some k))
  | pop {keys v k} (there : keys v = some k) (least : ∀ w l, keys w = some l → k ≤ l) :
      Answers keys .pop (.popped v k) (Function.update keys v none)

inductive AnswersAll : (Nat → Option Nat) → List Command → List Answer → (Nat → Option Nat) → Prop
  | nil {keys} : AnswersAll keys [] [] keys
  | cons {keys keys' keys'' c cs a answers} (one : Answers keys c a keys')
      (more : AnswersAll keys' cs answers keys'') :
      AnswersAll keys (c :: cs) (a :: answers) keys''

/-- The commands that are not programming errors. -/
def Allowed (mv : Nat) (keys : Nat → Option Nat) : Command → Prop
  | .push v _ => v ≤ mv
  | .pop => ∃ v, (keys v).isSome

theorem exec_spec {h' : Heap} {c : Command} {a : Answer} (wf : h.WellFormed)
    (done : h.exec c = some (a, h')) :
    Answers h.keyOf c a h'.keyOf ∧ h'.WellFormed ∧ h'.maxv = h.maxv := by
  cases c with
  | push v k =>
    obtain ⟨⟨existed, next⟩, pushed, same⟩ := Option.map_eq_some_iff.mp done
    obtain ⟨rfl, rfl⟩ := Prod.mk.inj same
    have allowed : v ≤ h.maxv := by
      by_contra above
      unfold Heap.push at pushed
      rw [if_neg above] at pushed
      cases pushed
    obtain ⟨h'', again, wf', size, keys⟩ := push_spec wf allowed k
    rw [again, Option.some.injEq, Prod.mk.injEq] at pushed
    obtain ⟨rfl, rfl⟩ := pushed
    exact ⟨keys ▸ .push, wf', size⟩
  | pop =>
    obtain ⟨⟨v, k, next⟩, popped, same⟩ := Option.map_eq_some_iff.mp done
    obtain ⟨rfl, rfl⟩ := Prod.mk.inj same
    obtain ⟨there, least, wf', size, _, keys⟩ := pop_spec wf popped
    exact ⟨keys ▸ .pop there least, wf', size⟩

theorem exec_none {c : Command} (wf : h.WellFormed) :
    h.exec c = none ↔ ¬ Allowed h.maxv h.keyOf c := by
  cases c with
  | push v k =>
    show (h.push v k).map _ = none ↔ ¬ v ≤ h.maxv
    rw [Option.map_eq_none_iff]
    constructor
    · intro fails allowed
      obtain ⟨_, pushed, _⟩ := push_spec wf allowed k
      rw [pushed] at fails
      cases fails
    · intro above
      unfold Heap.push
      rw [if_neg above]
  | pop =>
    show h.pop.map _ = none ↔ ¬ ∃ v, (h.keyOf v).isSome
    rw [Option.map_eq_none_iff, pop_none, size_zero wf.toTabled, not_exists]
    exact forall_congr' fun v => Option.not_isSome_iff_eq_none.symm

theorem execAll_spec {h' : Heap} {cs : List Command} {answers : List Answer} (wf : h.WellFormed)
    (done : h.execAll cs = some (answers, h')) :
    AnswersAll h.keyOf cs answers h'.keyOf ∧ h'.WellFormed ∧ h'.maxv = h.maxv := by
  induction cs generalizing h answers with
  | nil =>
    obtain ⟨rfl, rfl⟩ := Prod.mk.inj (Option.some.inj done)
    exact ⟨.nil, wf, rfl⟩
  | cons c cs ih =>
    obtain ⟨⟨a, middle⟩, one, done⟩ := Option.bind_eq_some_iff.mp done
    obtain ⟨⟨rest, last⟩, more, done⟩ := Option.bind_eq_some_iff.mp done
    obtain ⟨rfl, rfl⟩ := Prod.mk.inj (Option.some.inj done)
    obtain ⟨answer, wf', size⟩ := exec_spec wf one
    obtain ⟨others, wf'', size'⟩ := ih wf' more
    exact ⟨.cons answer others, wf'', size'.trans size⟩

/-- Whatever is pushed and popped, the answers are those of a finite map, and the only commands
that fail are a value above the greatest and a pop when there is nothing. -/
theorem heap_refines (mv : Nat) (cs : List Command) {answers : List Answer} {made h : Heap}
    (start : create mv = some made) (done : made.execAll cs = some (answers, h)) :
    AnswersAll (fun _ => none) cs answers h.keyOf ∧
      (∀ c, h.exec c = none ↔ ¬ Allowed mv h.keyOf c) ∧
      h.size = ((Finset.range (mv + 1)).filter fun v => (h.keyOf v).isSome).card := by
  obtain ⟨wf, size, keys⟩ := create_spec start
  obtain ⟨all, wf', size'⟩ := execAll_spec wf done
  have bound : h.maxv = mv := size'.trans size
  rw [funext keys] at all
  exact ⟨all, fun c => bound ▸ exec_none wf', bound ▸ size_eq wf'.toTabled⟩

def repeated : List Command := [.push 2 5, .push 1 3, .push 0 4, .push 2 1, .pop, .pop]

def repeatedAnswers : List Answer :=
  [.pushed false, .pushed false, .pushed false, .pushed true, .popped 2 1, .popped 1 3]

theorem repeated_refines : ∃ made h, create 2 = some made ∧
    made.execAll repeated = some (repeatedAnswers, h) ∧
    AnswersAll (fun _ => none) repeated repeatedAnswers h.keyOf ∧
    (∀ c, h.exec c = none ↔ ¬ Allowed 2 h.keyOf c) ∧
    h.size = ((Finset.range 3).filter fun v => (h.keyOf v).isSome).card :=
  ⟨_, _, rfl, rfl, heap_refines 2 repeated rfl rfl⟩

end Heap
end ProgramSlicer.PtrAnalysis
