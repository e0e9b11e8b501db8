import Mathlib.Data.List.Basic
import Mathlib.Tactic.Common

/-!
Lists of blocks by ascending keys, as tables from keys to blocks. Two of them are merged by one
walk over both, which also says whether anything has changed.
-/
namespace SortedBlocks
variable {B : Type} (key : B → Nat)

def Sorted (l : List B) : Prop := l.Pairwise fun a b => key a < key b

def find (l : List B) (k : Nat) : Option B := l.find? fun b => key b = k

section Find
variable {key} {l l₁ l₂ : List B} {a b : B} {k : Nat}

theorem find_cons : find key (b :: l) k = if key b = k then some b else find key l k := by
  unfold find
  by_cases here : key b = k <;> simp [here]

theorem of_find (found : find key l k = some b) : b ∈ l ∧ key b = k :=
  ⟨List.mem_of_find?_eq_some found, by simpa using List.find?_some found⟩

theorem find_none_iff : find key l k = none ↔ ∀ b ∈ l, key b ≠ k := by
  simp [find]

theorem sorted_cons : Sorted key (a :: l) ↔ (∀ b ∈ l, key a < key b) ∧ Sorted key l :=
  List.pairwise_cons

theorem find_above (low : ∀ b ∈ l, k < key b) : find key l k = none :=
  find_none_iff.mpr fun b mem => Nat.ne_of_gt (low b mem)

theorem find_of_mem (sorted : Sorted key l) (mem : b ∈ l) : find key l (key b) = some b := by
  induction l with
  | nil => cases mem
  | cons a l ih =>
    obtain ⟨above, rest⟩ := sorted_cons.mp sorted
    rw [find_cons]
    rcases List.mem_cons.mp mem with rfl | later
    · rw [if_pos rfl]
    · rw [if_neg (Nat.ne_of_lt (above b later))]
      exact ih rest later

theorem find_iff (sorted : Sorted key l) : find key l k = some b ↔ b ∈ l ∧ key b = k := by
  constructor
  · exact of_find
  · rintro ⟨mem, rfl⟩
    exact find_of_mem sorted mem

theorem sorted_ext (sorted : Sorted key l₁) (sorted' : Sorted key l₂)
    (same : ∀ k, find key l₁ k = find key l₂ k) : l₁ = l₂ := by
  have members : ∀ b, b ∈ l₁ ↔ b ∈ l₂ := by
    intro b
    constructor
    · exact fun mem => (of_find ((same _).symm.trans (find_of_mem sorted mem))).1
    · exact fun mem => (of_find ((same _).trans (find_of_mem sorted' mem))).1
  have nodup : ∀ {l : List B}, Sorted key l → l.Nodup := by
    intro l sorted
    refine List.Pairwise.imp ?_ sorted
    rintro a b lt rfl
    exact Nat.lt_irrefl _ lt
  refine ((List.perm_ext_iff_of_nodup (nodup sorted) (nodup sorted')).mpr members).eq_of_pairwise
    (fun a b _ _ one two => ?_) sorted sorted'
  omega

theorem sorted_middle : Sorted key (l₁ ++ b :: l₂) ↔
    Sorted key (l₁ ++ l₂) ∧ (∀ a ∈ l₁, key a < key b) ∧ ∀ c ∈ l₂, key b < key c := by
  unfold Sorted
  simp only [List.pairwise_append, List.pairwise_cons, List.mem_cons, forall_eq_or_imp]
  grind

end Find

/-! ### Merging -/

/-- What is done with a block that only the one or the other list has, and with two blocks of one
    key: the block to be kept, if any, and whether this is a change. -/
structure Merge (B : Type) where
  left : B → Option B × Bool
  right : B → Option B × Bool
  both : B → B → Option B × Bool

namespace Merge
variable {key} (m : Merge B)

def emit (r : Option B × Bool) (done : List B × Bool) : List B × Bool :=
  (r.1.toList ++ done.1, r.2 || done.2)

variable (key) in
def loop : Nat → List B → List B → List B × Bool
  | fuel + 1, a :: as, b :: bs =>
    if key b < key a then emit (m.right b) (loop fuel (a :: as) bs)
    else if key a = key b then emit (m.both a b) (loop fuel as bs)
    else emit (m.left a) (loop fuel as (b :: bs))
  | fuel + 1, a :: as, [] => emit (m.left a) (loop fuel as [])
  | fuel + 1, [], b :: bs => emit (m.right b) (loop fuel [] bs)
  | _, _, _ => ([], false)

variable (key) in
def merge (l₁ l₂ : List B) : List B × Bool := m.loop key (l₁.length + l₂.length) l₁ l₂

def entry : Option B → Option B → Option B × Bool
  | some a, some b => m.both a b
  | some a, none => m.left a
  | none, some b => m.right b
  | none, none => (none, false)

variable (key) in
structure KeepsKeys : Prop where
  left : ∀ a c, (m.left a).1 = some c → key c = key a
  right : ∀ b c, (m.right b).1 = some c → key c = key b
  both : ∀ a b c, key a = key b → (m.both a b).1 = some c → key c = key a

variable (key) in
structure Merged (l₁ l₂ : List B) (r : List B × Bool) : Prop where
  sorted : Sorted key r.1
  find : ∀ k, find key r.1 k = (m.entry (find key l₁ k) (find key l₂ k)).1
  changed : r.2 = true ↔ ∃ k, (m.entry (SortedBlocks.find key l₁ k)
    (SortedBlocks.find key l₂ k)).2 = true

variable {m} {l₁ l₂ l₁' l₂' : List B} {r : List B × Bool} {k₀ : Nat}

theorem merged_above (done : m.Merged key l₁ l₂ r) (above₁ : ∀ b ∈ l₁, k₀ < key b)
    (above₂ : ∀ b ∈ l₂, k₀ < key b) : ∀ b ∈ r.1, k₀ < key b := by
  intro b mem
  by_contra low
  have found := find_of_mem done.sorted mem
  rw [done.find, find_above fun a here => by have := above₁ a here; omega,
    find_above fun a here => by have := above₂ a here; omega] at found
  cases found

theorem merged_emit {x y : Option B}
    (table₁ : ∀ k, find key l₁ k = if k = k₀ then x else find key l₁' k)
    (table₂ : ∀ k, find key l₂ k = if k = k₀ then y else find key l₂' k)
    (above₁ : ∀ b ∈ l₁', k₀ < key b) (above₂ : ∀ b ∈ l₂', k₀ < key b)
    (kept : ∀ c, (m.entry x y).1 = some c → key c = k₀) (done : m.Merged key l₁' l₂' r) :
    m.Merged key l₁ l₂ (emit (m.entry x y) r) := by
  have above := merged_above done above₁ above₂
  refine ⟨?_, fun k => ?_, ?_⟩
  · show Sorted key ((m.entry x y).1.toList ++ r.1)
    cases head : (m.entry x y).1 with
    | none => exact done.sorted
    | some c => exact sorted_cons.mpr ⟨fun b mem => kept c head ▸ above b mem, done.sorted⟩
  · show SortedBlocks.find key ((m.entry x y).1.toList ++ r.1) k = _
    rw [table₁, table₂]
    cases head : (m.entry x y).1 with
    | none =>
      by_cases here : k = k₀
      · rw [if_pos here, if_pos here, head, here]
        exact find_above above
      · rw [if_neg here, if_neg here]
        exact done.find k
    | some c =>
      show SortedBlocks.find key (c :: r.1) k = _
      rw [find_cons, kept c head]
      by_cases here : k = k₀
      · rw [if_pos here, if_pos here, if_pos here.symm, head]
      · rw [if_neg here, if_neg here, if_neg (Ne.symm here)]
        exact done.find k
  · show ((m.entry x y).2 || r.2) = true ↔ _
    rw [Bool.or_eq_true, done.changed]
    constructor
    · rintro (here | ⟨k, later⟩)
      · exact ⟨k₀, by rw [table₁, table₂, if_pos rfl, if_pos rfl]; exact here⟩
      · refine ⟨k, ?_⟩
        by_cases here : k = k₀
        · rw [here, find_above above₁, find_above above₂] at later
          cases later
        · rw [table₁, table₂, if_neg here, if_neg here]
          exact later
    · rintro ⟨k, change⟩
      rw [table₁, table₂] at change
      by_cases here : k = k₀
      · rw [if_pos here, if_pos here] at change
        exact .inl change
      · rw [if_neg here, if_neg here] at change
        exact .inr ⟨k, change⟩

theorem table_cons {b : B} {l : List B} (k : Nat) :
    find key (b :: l) k = if k = key b then some b else find key l k := by
  rw [find_cons]
  simp only [eq_comm]

theorem table_above {l : List B} (above : ∀ b ∈ l, k₀ < key b) (k : Nat) :
    find key l k = if k = k₀ then none else find key l k := by
  by_cases here : k = k₀
  · rw [if_pos here, here]
    exact find_above above
  · rw [if_neg here]

theorem loop_merged (keeps : m.KeepsKeys key) {fuel : Nat} (enough : l₁.length + l₂.length ≤ fuel)
    (sorted₁ : Sorted key l₁) (sorted₂ : Sorted key l₂) :
    m.Merged key l₁ l₂ (m.loop key fuel l₁ l₂) := by
  induction fuel generalizing l₁ l₂ with
  | zero =>
    obtain rfl := List.length_eq_zero_iff.mp (show l₁.length = 0 by omega)
    obtain rfl := List.length_eq_zero_iff.mp (show l₂.length = 0 by omega)
    exact ⟨.nil, fun k => rfl, iff_of_false nofun nofun⟩
  | succ fuel ih =>
    match l₁, l₂ with
    | [], [] => exact ⟨.nil, fun k => rfl, iff_of_false nofun nofun⟩
    | [], b :: bs =>
      obtain ⟨above, rest⟩ := sorted_cons.mp sorted₂
      have none : ∀ c ∈ ([] : List B), key b < key c := nofun
      exact merged_emit (y := some b) (table_above none) table_cons none above (keeps.right b)
        (ih (by simp only [List.length_cons] at enough ⊢; omega) .nil rest)
    | a :: as, [] =>
      obtain ⟨above, rest⟩ := sorted_cons.mp sorted₁
      have none : ∀ c ∈ ([] : List B), key a < key c := nofun
      exact merged_emit (x := some a) table_cons (table_above none) above none (keeps.left a)
        (ih (by simp only [List.length_cons] at enough ⊢; omega) rest .nil)
    | a :: as, b :: bs =>
      obtain ⟨above, rest⟩ := sorted_cons.mp sorted₁
      obtain ⟨above', rest'⟩ := sorted_cons.mp sorted₂
      simp only [List.length_cons] at enough
      unfold loop
      split
      · rename_i before
        have all : ∀ c ∈ a :: as, key b < key c := by
          intro c mem
          rcases List.mem_cons.mp mem with rfl | mem
          · exact before
          · exact Nat.lt_trans before (above c mem)
        exact merged_emit (x := none) (y := some b) (table_above all) table_cons all above'
          (keeps.right b) (ih (by simp only [List.length_cons]; omega) sorted₁ rest')
      · split
        · rename_i same
          refine merged_emit (x := some a) (y := some b) table_cons (same ▸ table_cons) above
            (fun c mem => same ▸ above' c mem) (fun c => keeps.both a b c same)
            (ih (by omega) rest rest')
        · rename_i notBefore notSame
          have before : key a < key b := by omega
          have all : ∀ c ∈ b :: bs, key a < key c := by
            intro c mem
            rcases List.mem_cons.mp mem with rfl | mem
            · exact before
            · exact Nat.lt_trans before (above' c mem)
          exact merged_emit (x := some a) (y := none) table_cons (table_above all) above all
            (keeps.left a) (ih (by simp only [List.length_cons]; omega) rest sorted₂)

theorem merge_merged (keeps : m.KeepsKeys key) (sorted₁ : Sorted key l₁)
    (sorted₂ : Sorted key l₂) : m.Merged key l₁ l₂ (m.merge key l₁ l₂) :=
  loop_merged keeps (Nat.le_refl _) sorted₁ sorted₂

end Merge
end SortedBlocks
