import Mathlib.Logic.Function.Basic
import Mathlib.Order.Basic
import Mathlib.Tactic.Common

/-!
Binary heaps as keys at the positions `1, …, n`, where position `i` has its parent at `i / 2`.
A loop that restores the order moves one place at which it is broken, up or down, by exchanging
two keys. A table from values to positions is kept along.
-/
namespace BinaryHeap
variable {K V : Type}

def Ordered [LE K] (n : Nat) (key : Nat → K) : Prop :=
  ∀ j, 2 ≤ j → j ≤ n → key (j / 2) ≤ key j

def exchange (key : Nat → K) (i j : Nat) : Nat → K :=
  Function.update (Function.update key i (key j)) j (key i)

section Exchange
variable {key : Nat → K} {i j x : Nat}

@[simp] theorem exchange_right : exchange key i j j = key i := Function.update_self ..

theorem exchange_left (apart : i ≠ j) : exchange key i j i = key j := by
  unfold exchange
  rw [Function.update_of_ne apart, Function.update_self]

theorem exchange_other (notI : x ≠ i) (notJ : x ≠ j) : exchange key i j x = key x := by
  unfold exchange
  rw [Function.update_of_ne notJ, Function.update_of_ne notI]

end Exchange

section Order
variable [Preorder K] {n i : Nat} {key : Nat → K}

theorem root_le (ordered : Ordered n key) : ∀ j, 1 ≤ j → j ≤ n → key 1 ≤ key j := by
  intro j
  induction j using Nat.strongRecOn with
  | ind j ih =>
    intro low high
    by_cases root : j = 1
    · rw [root]
    · have above : j / 2 < j := by omega
      exact (ih (j / 2) above (by omega) (by omega)).trans (ordered j (by omega) high)

/-- Only the key at `i` may be below that of its parent. -/
structure UpAt (n : Nat) (key : Nat → K) (i : Nat) : Prop where
  apart : ∀ j, 2 ≤ j → j ≤ n → j ≠ i → key (j / 2) ≤ key j
  grand : 2 ≤ i → ∀ j, 2 ≤ j → j ≤ n → j / 2 = i → key (i / 2) ≤ key j

/-- Only the children of `i` may have keys below that of `i`. -/
structure DownAt (n : Nat) (key : Nat → K) (i : Nat) : Prop where
  apart : ∀ j, 2 ≤ j → j ≤ n → j / 2 ≠ i → key (j / 2) ≤ key j
  grand : 2 ≤ i → ∀ j, 2 ≤ j → j ≤ n → j / 2 = i → key (i / 2) ≤ key j

theorem UpAt.done (up : UpAt n key i) (here : 2 ≤ i → key (i / 2) ≤ key i) : Ordered n key := by
  intro j low high
  by_cases same : j = i
  · rw [same]
    exact here (same ▸ low)
  · exact up.apart j low high same

theorem DownAt.done (down : DownAt n key i)
    (here : ∀ j, 2 ≤ j → j ≤ n → j / 2 = i → key i ≤ key j) : Ordered n key := by
  intro j low high
  by_cases same : j / 2 = i
  · rw [same]
    exact here j low high same
  · exact down.apart j low high same

theorem UpAt.exchange (up : UpAt n key i) (low : 2 ≤ i) (high : i ≤ n)
    (below : key i ≤ key (i / 2)) : UpAt n (exchange key i (i / 2)) (i / 2) := by
  have apart : i ≠ i / 2 := by omega
  constructor
  · intro j lowJ highJ notParent
    by_cases child : j = i
    · rw [child, exchange_right, exchange_left apart]
      exact below
    · rw [exchange_other child notParent]
      by_cases sibling : j / 2 = i / 2
      · rw [sibling, exchange_right]
        exact below.trans (sibling ▸ up.apart j lowJ highJ child)
      · by_cases under : j / 2 = i
        · rw [under, exchange_left apart]
          exact up.grand low j lowJ highJ under
        · rw [exchange_other under sibling]
          exact up.apart j lowJ highJ child
  · intro lowP j lowJ highJ sibling
    have away : i / 2 / 2 ≠ i := by omega
    have above : i / 2 / 2 ≠ i / 2 := by omega
    have notParent : j ≠ i / 2 := by omega
    rw [exchange_other away above]
    have step := up.apart (i / 2) lowP (by omega) (by omega)
    by_cases child : j = i
    · rw [child, exchange_left apart]
      exact step
    · rw [exchange_other child notParent]
      exact step.trans (sibling ▸ up.apart j lowJ highJ child)

theorem DownAt.exchange {c : Nat} (down : DownAt n key i) (low : 2 ≤ c) (high : c ≤ n)
    (child : c / 2 = i) (least : ∀ j, 2 ≤ j → j ≤ n → j / 2 = i → key c ≤ key j)
    (below : key c ≤ key i) : DownAt n (exchange key i c) c := by
  have apart : i ≠ c := by omega
  constructor
  · intro j lowJ highJ notUnder
    by_cases here : j = c
    · rw [here, child, exchange_right, exchange_left apart]
      exact below
    · by_cases isTop : j = i
      · rw [isTop, exchange_left apart, exchange_other (by omega) (by omega)]
        exact down.grand (isTop ▸ lowJ) c low high child
      · rw [exchange_other isTop here]
        by_cases sibling : j / 2 = i
        · rw [sibling, exchange_left apart]
          exact least j lowJ highJ sibling
        · rw [exchange_other sibling notUnder]
          exact down.apart j lowJ highJ sibling
  · intro _ j lowJ highJ under
    rw [child, exchange_left apart, exchange_other (by omega) (by omega)]
    rw [← under]
    exact down.apart j lowJ highJ (by omega)

end Order

section Changes
variable [Preorder K] {n i : Nat} {key : Nat → K} {k : K}

theorem upAt_append (ordered : Ordered n key) :
    UpAt (n + 1) (Function.update key (n + 1) k) (n + 1) := by
  constructor
  · intro j low high other
    rw [Function.update_of_ne other, Function.update_of_ne (by omega)]
    exact ordered j low (by omega)
  · intro _ j _ high under
    omega

theorem upAt_lower (ordered : Ordered n key) (high : i ≤ n) (lower : k ≤ key i) :
    UpAt n (Function.update key i k) i := by
  constructor
  · intro j lowJ highJ other
    rw [Function.update_of_ne other]
    by_cases under : j / 2 = i
    · rw [under, Function.update_self]
      exact lower.trans (under ▸ ordered j lowJ highJ)
    · rw [Function.update_of_ne under]
      exact ordered j lowJ highJ
  · intro low j lowJ highJ under
    rw [Function.update_of_ne (by omega), Function.update_of_ne (by omega)]
    exact (ordered i low high).trans (under ▸ ordered j lowJ highJ)

theorem downAt_raise (ordered : Ordered n key) (high : i ≤ n) (higher : key i ≤ k) :
    DownAt n (Function.update key i k) i := by
  constructor
  · intro j lowJ highJ notUnder
    rw [Function.update_of_ne notUnder]
    by_cases here : j = i
    · rw [here, Function.update_self]
      exact (here ▸ ordered j lowJ highJ).trans higher
    · rw [Function.update_of_ne here]
      exact ordered j lowJ highJ
  · intro low j lowJ highJ under
    rw [Function.update_of_ne (by omega), Function.update_of_ne (by omega)]
    exact (ordered i low high).trans (under ▸ ordered j lowJ highJ)

theorem downAt_root (ordered : Ordered (n + 1) key) : DownAt n (Function.update key 1 k) 1 := by
  constructor
  · intro j low high notUnder
    rw [Function.update_of_ne notUnder, Function.update_of_ne (by omega)]
    exact ordered j low (by omega)
  · intro low
    omega

end Changes

/-! ### Positions of values -/

def Indexed (n : Nat) (value : Nat → V) (index : V → Option Nat) : Prop :=
  ∀ v i, index v = some i ↔ 1 ≤ i ∧ i ≤ n ∧ value i = v

section Index
variable [DecidableEq V] {n i j : Nat} {value : Nat → V} {index : V → Option Nat}

omit [DecidableEq V] in
theorem Indexed.at (indexed : Indexed n value index) (low : 1 ≤ i) (high : i ≤ n) :
    index (value i) = some i := (indexed _ _).mpr ⟨low, high, rfl⟩

theorem Indexed.exchange (indexed : Indexed n value index) (lowI : 1 ≤ i) (highI : i ≤ n)
    (lowJ : 1 ≤ j) (highJ : j ≤ n) (apart : i ≠ j) :
    Indexed n (exchange value i j)
      (Function.update (Function.update index (value i) (some j)) (value j) (some i)) := by
  have isI := indexed.at lowI highI
  have isJ := indexed.at lowJ highJ
  have other : value i ≠ value j := by
    intro same
    rw [same, isJ] at isI
    exact apart (Option.some.inj isI).symm
  intro v x
  by_cases one : v = value j
  · rw [one, Function.update_self]
    constructor
    · intro here
      obtain rfl := Option.some.inj here
      exact ⟨lowI, highI, exchange_left apart⟩
    · rintro ⟨low, high, there⟩
      by_cases isX : x = i
      · rw [isX]
      · by_cases isX' : x = j
        · rw [isX', exchange_right] at there
          exact absurd there other
        · rw [exchange_other isX isX'] at there
          rw [← there, indexed.at low high, Option.some.injEq] at isJ
          exact absurd isJ isX'
  · rw [Function.update_of_ne one]
    by_cases two : v = value i
    · rw [two, Function.update_self]
      constructor
      · intro here
        obtain rfl := Option.some.inj here
        exact ⟨lowJ, highJ, exchange_right⟩
      · rintro ⟨low, high, there⟩
        by_cases isX : x = j
        · rw [isX]
        · by_cases isX' : x = i
          · rw [isX', exchange_left apart] at there
            exact absurd there.symm other
          · rw [exchange_other isX' isX] at there
            rw [← there, indexed.at low high, Option.some.injEq] at isI
            exact absurd isI isX'
    · rw [Function.update_of_ne two, indexed]
      by_cases isX : x = i
      · rw [isX, exchange_left apart]
        exact ⟨fun here => absurd here.2.2.symm two, fun here => absurd here.2.2.symm one⟩
      · by_cases isX' : x = j
        · rw [isX', exchange_right]
          exact ⟨fun here => absurd here.2.2.symm one, fun here => absurd here.2.2.symm two⟩
        · rw [exchange_other isX isX']

theorem Indexed.append {v : V} (indexed : Indexed n value index) (new : index v = none) :
    Indexed (n + 1) (Function.update value (n + 1) v) (Function.update index v (some (n + 1))) := by
  intro w x
  by_cases same : w = v
  · rw [same, Function.update_self]
    constructor
    · intro here
      obtain rfl := Option.some.inj here
      exact ⟨by omega, Nat.le_refl _, Function.update_self ..⟩
    · rintro ⟨low, high, there⟩
      by_cases last : x = n + 1
      · rw [last]
      · rw [Function.update_of_ne last] at there
        rw [(indexed v x).mpr ⟨low, by omega, there⟩] at new
        cases new
  · rw [Function.update_of_ne same, indexed]
    by_cases last : x = n + 1
    · rw [last, Function.update_self]
      exact ⟨fun here => absurd here.2.1 (by omega), fun here => absurd here.2.2.symm same⟩
    · rw [Function.update_of_ne last]
      exact ⟨fun ⟨low, high, here⟩ => ⟨low, by omega, here⟩,
        fun ⟨low, high, here⟩ => ⟨low, by omega, here⟩⟩

theorem Indexed.replaceRoot (indexed : Indexed (n + 1) value index) (more : 1 ≤ n) :
    Indexed n (Function.update value 1 (value (n + 1)))
      (Function.update (Function.update index (value 1) none) (value (n + 1)) (some 1)) := by
  have isRoot := indexed.at (Nat.le_refl 1) (by omega)
  have isLast := indexed.at (i := n + 1) (by omega) (Nat.le_refl _)
  intro v x
  by_cases last : v = value (n + 1)
  · rw [last, Function.update_self]
    constructor
    · intro here
      obtain rfl := Option.some.inj here
      exact ⟨Nat.le_refl _, more, Function.update_self ..⟩
    · rintro ⟨low, high, there⟩
      by_cases root : x = 1
      · rw [root]
      · rw [Function.update_of_ne root] at there
        rw [← there, indexed.at low (by omega), Option.some.injEq] at isLast
        omega
  · rw [Function.update_of_ne last]
    by_cases root : v = value 1
    · rw [root, Function.update_self]
      refine ⟨nofun, fun ⟨low, high, there⟩ => ?_⟩
      by_cases first : x = 1
      · rw [first, Function.update_self] at there
        exact absurd (root.trans there.symm) last
      · rw [Function.update_of_ne first] at there
        rw [← there, indexed.at low (by omega), Option.some.injEq] at isRoot
        exact absurd isRoot first
    · rw [Function.update_of_ne root, indexed]
      by_cases first : x = 1
      · rw [first, Function.update_self]
        exact ⟨fun here => absurd here.2.2.symm root, fun here => absurd here.2.2.symm last⟩
      · rw [Function.update_of_ne first]
        constructor
        · rintro ⟨low, high, here⟩
          refine ⟨low, ?_, here⟩
          by_contra beyond
          have isLast' : x = n + 1 := by omega
          exact last (isLast' ▸ here.symm)
        · exact fun ⟨low, high, here⟩ => ⟨low, by omega, here⟩

end Index
end BinaryHeap
