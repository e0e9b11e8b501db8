import Mathlib.Data.List.Nodup
import Mathlib.Tactic.Common

/-!
A hash table as far as the C++ standard says what it does. Where a new element goes among the
others, and which insertion makes the table rehash, is up to the library. Without a rehash
the others keep their order and iterators stay valid; a rehash puts all elements in a new
order, and makes every iterator invalid. Nothing is erased.
-/
namespace HashTable
variable {K V : Type} [DecidableEq K]

structure Policy (K : Type) where
  /-- Whether a table with so many elements rehashes when it is given another one. -/
  grows : Nat → Bool
  /-- The order with a new key in it. -/
  arrange : List K → K → List K
  perm : ∀ (keys : List K) (k : K), (arrange keys k).Perm (k :: keys)
  stable : ∀ (keys : List K) (k : K), grows keys.length = false → keys.Sublist (arrange keys k)

structure Table (K V : Type) where
  policy : Policy K
  /-- The keys in the order of the iterator. -/
  keys : List K
  find : K → Option V
  listed : ∀ k, k ∈ keys ↔ (find k).isSome = true
  nodup : keys.Nodup

/-- No rehash while the table grows from one size to another. -/
def Policy.Calm (policy : Policy K) (before after : Nat) : Prop :=
  ∀ n, before ≤ n → n < after → policy.grows n = false

instance (policy : Policy K) (before after : Nat) : Decidable (policy.Calm before after) :=
  decidable_of_iff (∀ n < after, before ≤ n → policy.grows n = false)
    ⟨fun h n le lt => h n lt le, fun h n lt le => h n le lt⟩

namespace Table

def empty (policy : Policy K) : Table K V :=
  ⟨policy, [], fun _ => none, by simp, List.nodup_nil⟩

def insert (t : Table K V) (k : K) (v : V) : Table K V where
  policy := t.policy
  keys := if k ∈ t.keys then t.keys else t.policy.arrange t.keys k
  find n := if n = k then some v else t.find n
  listed n := by
    have old := t.listed n
    by_cases same : n = k
    · subst same
      split
      · rename_i here
        simp [here]
      · simp [(t.policy.perm t.keys n).mem_iff]
    · rw [if_neg same, ← old]
      split
      · rfl
      · simp [(t.policy.perm t.keys k).mem_iff, same]
  nodup := by
    split
    · exact t.nodup
    · rename_i new
      exact (t.policy.perm t.keys k).nodup_iff.mpr (List.nodup_cons.mpr ⟨new, t.nodup⟩)

/-- How often the table has rehashed, and so all iterators have become invalid. -/
def rehashes (t : Table K V) : Nat := ((List.range t.keys.length).filter t.policy.grows).length

variable {t t' : Table K V} {k n : K} {v : V}

omit [DecidableEq K] in
@[simp] theorem keys_empty (policy : Policy K) : (empty policy : Table K V).keys = [] := rfl

omit [DecidableEq K] in
@[simp] theorem find_empty (policy : Policy K) (n : K) :
    (empty policy : Table K V).find n = none := rfl

@[simp] theorem policy_insert : (t.insert k v).policy = t.policy := rfl

@[simp] theorem find_insert :
    (t.insert k v).find n = if n = k then some v else t.find n := rfl

theorem keys_insert_old (old : k ∈ t.keys) : (t.insert k v).keys = t.keys := if_pos old

theorem keys_insert_new (new : k ∉ t.keys) :
    (t.insert k v).keys = t.policy.arrange t.keys k := if_neg new

@[simp] theorem mem_keys_insert : n ∈ (t.insert k v).keys ↔ n = k ∨ n ∈ t.keys := by
  rw [listed, listed, find_insert]
  by_cases same : n = k <;> simp [same]

/-- What became of a table by insertions. -/
structure Extends (t t' : Table K V) : Prop where
  policy : t'.policy = t.policy
  subset : ∀ k ∈ t.keys, k ∈ t'.keys
  kept : t.policy.Calm t.keys.length t'.keys.length → t.keys.Sublist t'.keys

omit [DecidableEq K] in
theorem Extends.length_le (ext : Extends t t') : t.keys.length ≤ t'.keys.length :=
  t.nodup.length_le_of_subset ext.subset

omit [DecidableEq K] in
theorem extends_refl (t : Table K V) : Extends t t := ⟨rfl, fun _ h => h, fun _ => List.Sublist.refl _⟩

omit [DecidableEq K] in
theorem Extends.trans {t'' : Table K V} (one : Extends t t') (two : Extends t' t'') :
    Extends t t'' where
  policy := two.policy.trans one.policy
  subset k mem := two.subset k (one.subset k mem)
  kept calm := by
    have first := one.kept fun n le lt => calm n le (Nat.lt_of_lt_of_le lt two.length_le)
    have second := two.kept fun n le lt => one.policy ▸ calm n (Nat.le_trans one.length_le le) lt
    exact first.trans second

theorem insert_extends (t : Table K V) (k : K) (v : V) : Extends t (t.insert k v) where
  policy := rfl
  subset n mem := mem_keys_insert.mpr (.inr mem)
  kept calm := by
    by_cases old : k ∈ t.keys
    · rw [keys_insert_old old]
    · rw [keys_insert_new old] at calm ⊢
      refine t.policy.stable _ _ (calm _ (Nat.le_refl _) ?_)
      rw [(t.policy.perm t.keys k).length_eq, List.length_cons]
      exact Nat.lt_succ_self _

omit [DecidableEq K] in
theorem Extends.rehashes_iff (ext : Extends t t') :
    t'.rehashes = t.rehashes ↔ t.policy.Calm t.keys.length t'.keys.length := by
  obtain ⟨more, same⟩ := Nat.exists_eq_add_of_le ext.length_le
  unfold rehashes Policy.Calm
  rw [ext.policy, same, List.range_add, List.filter_append, List.length_append]
  constructor
  · intro equal n le lt
    have none : (((List.range more).map (t.keys.length + ·)).filter t.policy.grows) = [] :=
      List.length_eq_zero_iff.mp (by omega)
    have absent := List.filter_eq_nil_iff.mp none n
      (List.mem_map.mpr ⟨n - t.keys.length, List.mem_range.mpr (by omega), by omega⟩)
    simpa using absent
  · intro calm
    have none : (((List.range more).map (t.keys.length + ·)).filter t.policy.grows) = [] := by
      refine List.filter_eq_nil_iff.mpr fun n mem => ?_
      obtain ⟨d, lt, rfl⟩ := List.mem_map.mp mem
      rw [calm _ (Nat.le_add_right ..) (by have := List.mem_range.mp lt; omega)]
      exact Bool.false_ne_true
    rw [none]
    rfl

end Table

/-! ### `std::unordered_map` of libstdc++ for keys that are their own hash values -/

namespace Libstdcxx

def capacities : List Nat := [0, 13, 29, 59, 127, 257, 541, 1109, 2357, 5087, 10273]

def buckets (size : Nat) : Nat := (capacities.find? (size ≤ ·)).getD (size + 1)

def place (count : Nat) (keys : List Nat) (k : Nat) : List Nat :=
  if keys.any (· % count = k % count) then
    keys.takeWhile (· % count ≠ k % count) ++ k :: keys.dropWhile (· % count ≠ k % count)
  else k :: keys

theorem place_perm (count : Nat) (keys : List Nat) (k : Nat) :
    (place count keys k).Perm (k :: keys) := by
  unfold place
  split
  · refine List.perm_middle.trans (List.Perm.cons k ?_)
    rw [List.takeWhile_append_dropWhile]
  · exact List.Perm.refl _

theorem place_sublist (count : Nat) (keys : List Nat) (k : Nat) :
    keys.Sublist (place count keys k) := by
  unfold place
  split
  · conv => lhs; rw [← List.takeWhile_append_dropWhile (p := (· % count ≠ k % count)) (l := keys)]
    exact (List.Sublist.refl _).append (List.sublist_cons_self ..)
  · exact List.sublist_cons_self ..

/-- A rehash takes the elements out in their order and puts them into the new buckets. -/
def policy : Policy Nat where
  grows size := size ∈ capacities
  arrange keys k :=
    let count := buckets (keys.length + 1)
    if keys.length ∈ capacities then place count (keys.foldl (place count) []) k
    else place count keys k
  perm keys k := by
    have rehashed : ∀ (count : Nat) (l placed : List Nat),
        (l.foldl (place count) placed).Perm (l ++ placed) := by
      intro count l
      induction l with
      | nil => exact fun placed => List.Perm.refl _
      | cons a l ih =>
        intro placed
        exact (ih _).trans ((List.Perm.append_left l (place_perm count placed a)).trans
          List.perm_middle)
    dsimp only
    split
    · refine (place_perm _ _ k).trans (List.Perm.cons k ?_)
      simpa using rehashed (buckets (keys.length + 1)) keys []
    · exact place_perm _ _ k
  stable keys k calm := by
    have full : keys.length ∉ capacities := by simpa using calm
    dsimp only
    rw [if_neg full]
    exact place_sublist _ keys k

example : [13, 1, 2, 14, 27].foldl policy.arrange [] = [2, 27, 14, 1, 13] := rfl

end Libstdcxx
end HashTable
