import Mathlib.Algebra.BigOperators.Fin
import Mathlib.Data.List.FinRange
import Mathlib.Logic.Function.Basic
import Mathlib.Tactic.Common

/-!
One element of a sparse bitmap: a row of machine words, in which a bit is a word and a place in
it. How many words there are and how long they are depends on the platform and on `BM_ELSZ`, which
they fill.
-/
namespace ProgramSlicer.PtrAnalysis

def countTrailingZeros {W : Nat} (w : BitVec W) : Nat :=
  ((List.range W).find? fun i => w.getLsbD i).getD W

def countPopulation {W : Nat} (w : BitVec W) : Nat := (List.range W).countP fun i => w.getLsbD i

/-- `MySparseBitVectorElement`, of `N` words. -/
structure BitmapElement (W N : Nat) where
  index : Nat
  bits : Fin N → BitVec W

namespace BitmapElement
variable {W N : Nat}

def new (idx : Nat) : BitmapElement W N := ⟨idx, fun _ => 0⟩

def equals (e rhs : BitmapElement W N) : Bool :=
  if e.index ≠ rhs.index then false
  else (List.finRange N).all fun j => e.bits j == rhs.bits j

def differs (e rhs : BitmapElement W N) : Bool := !e.equals rhs

def word (i : Fin (W * N)) : Fin N := ⟨i.val / W, Nat.div_lt_of_lt_mul i.isLt⟩

def mask (i : Fin (W * N)) : BitVec W := 1#W <<< (i.val % W)

def test (e : BitmapElement W N) (i : Fin (W * N)) : Bool := (e.bits (word i) &&& mask i) != 0

def set (e : BitmapElement W N) (i : Fin (W * N)) : BitmapElement W N :=
  { e with bits := Function.update e.bits (word i) (e.bits (word i) ||| mask i) }

def reset (e : BitmapElement W N) (i : Fin (W * N)) : BitmapElement W N :=
  { e with bits := Function.update e.bits (word i) (e.bits (word i) &&& ~~~ mask i) }

def empty (e : BitmapElement W N) : Bool := (List.finRange N).all fun j => e.bits j == 0

/-- The locals of the loops over the words of two elements. -/
structure Combined (W N : Nat) where
  bits : Fin N → BitVec W
  changed : Bool
  allzero : Bool

def combineWord (op : BitVec W → BitVec W → BitVec W) (rhs : Fin N → BitVec W)
    (r : Combined W N) (j : Fin N) : Combined W N :=
  let old := if r.changed then 0 else r.bits j
  let new := op (r.bits j) (rhs j)
  { bits := Function.update r.bits j new
    changed := if !r.changed && old != new then true else r.changed
    allzero := if new != 0 then false else r.allzero }

def combine (op : BitVec W → BitVec W → BitVec W) (e rhs : BitmapElement W N) : Combined W N :=
  (List.finRange N).foldl (combineWord op rhs.bits) ⟨e.bits, false, true⟩

/-- The result and whether the element has changed. -/
def unionWith (e rhs : BitmapElement W N) : BitmapElement W N × Bool :=
  let r := combine (· ||| ·) e rhs
  ({ e with bits := r.bits }, r.changed)

/-- The result, whether the element has changed and whether it became zero. -/
def intersectWith (e rhs : BitmapElement W N) : BitmapElement W N × Bool × Bool :=
  let r := combine (· &&& ·) e rhs
  ({ e with bits := r.bits }, r.changed, r.allzero)

def intersectWithComplement (e rhs : BitmapElement W N) : BitmapElement W N × Bool × Bool :=
  let r := combine (fun a b => a &&& ~~~ b) e rhs
  ({ e with bits := r.bits }, r.changed, r.allzero)

def count (e : BitmapElement W N) : Nat :=
  (List.finRange N).foldl (fun numBits j => numBits + countPopulation (e.bits j)) 0

def find_first (e : BitmapElement W N) : Option Nat :=
  (List.finRange N).findSome? fun j =>
    if e.bits j != 0 then some (j * W + countTrailingZeros (e.bits j)) else none

/-- From the bit `curr` on; `none` for -1. -/
def find_next (e : BitmapElement W N) (curr : Nat) : Option Nat :=
  if h : curr < W * N then
    let wordPos := word ⟨curr, h⟩
    let copy := e.bits wordPos &&& (BitVec.allOnes W <<< (curr % W))
    if copy != 0 then some (wordPos * W + countTrailingZeros copy)
    else ((List.finRange N).filter fun j => wordPos < j).findSome? fun j =>
      if e.bits j != 0 then some (j * W + countTrailingZeros (e.bits j)) else none
  else none

def has (e : BitmapElement W N) (i : Nat) : Prop := ∃ h : i < W * N, e.test ⟨i, h⟩ = true

/-! ### Bits and words -/

theorem word_eq {i j : Fin (W * N)} : word i = word j ∧ i.val % W = j.val % W ↔ i = j := by
  constructor
  · rintro ⟨words, places⟩
    have quotients : i.val / W = j.val / W := congrArg Fin.val words
    have one := Nat.div_add_mod i.val W
    have two := Nat.div_add_mod j.val W
    rw [quotients, places, two] at one
    exact Fin.ext one.symm
  · rintro rfl
    exact ⟨rfl, rfl⟩

theorem place_lt (i : Fin (W * N)) : i.val % W < W := by
  refine Nat.mod_lt _ (Nat.pos_of_ne_zero ?_)
  rintro rfl
  exact absurd i.isLt (by simp)

theorem getLsbD_mask (i : Fin (W * N)) (k : Nat) :
    (mask i).getLsbD k = decide (k = i.val % W) := by
  have low := place_lt i
  unfold mask
  rw [BitVec.getLsbD_shiftLeft, BitVec.getLsbD_one]
  by_cases here : k = i.val % W
  · subst here
    have wide : 0 < W := by omega
    simp [low, wide]
  · simp [here]
    omega

theorem test_eq (e : BitmapElement W N) (i : Fin (W * N)) :
    e.test i = (e.bits (word i)).getLsbD (i.val % W) := by
  unfold test
  rw [Bool.eq_iff_iff, bne_iff_ne]
  constructor
  · intro some
    by_contra off
    refine some (BitVec.eq_of_getLsbD_eq fun k low => ?_)
    rw [BitVec.getLsbD_and, getLsbD_mask]
    by_cases here : k = i.val % W
    · rw [here, Bool.eq_false_of_not_eq_true off]
      simp
    · simp [here]
  · intro on zero
    have bit : (e.bits (word i) &&& mask i).getLsbD (i.val % W) = true := by
      rw [BitVec.getLsbD_and, on, getLsbD_mask]
      simp
    rw [zero] at bit
    simp at bit

theorem has_iff {e : BitmapElement W N} {i : Nat} :
    e.has i ↔ ∃ h : i / W < N, (e.bits ⟨i / W, h⟩).getLsbD (i % W) = true := by
  constructor
  · rintro ⟨h, on⟩
    rw [test_eq] at on
    exact ⟨(word ⟨i, h⟩).isLt, on⟩
  · rintro ⟨h, on⟩
    have wide : 0 < W := Nat.lt_of_le_of_lt (Nat.zero_le _) (BitVec.lt_of_getLsbD on)
    have low : i < W * N := by
      rw [Nat.mul_comm]
      exact (Nat.div_lt_iff_lt_mul wide).mp h
    refine ⟨low, ?_⟩
    rw [test_eq]
    exact on

theorem has_place {e : BitmapElement W N} (j : Fin N) {k : Nat} (low : k < W) :
    e.has (j * W + k) ↔ (e.bits j).getLsbD k = true := by
  have quotient : (j.val * W + k) / W = j := by
    rw [Nat.mul_comm, Nat.mul_add_div (by omega), Nat.div_eq_of_lt low, Nat.add_zero]
  have rest : (j.val * W + k) % W = k := by
    rw [Nat.mul_comm, Nat.mul_add_mod, Nat.mod_eq_of_lt low]
  rw [has_iff]
  simp only [quotient, rest, Fin.eta, j.isLt, exists_true_left]

theorem place_of_has {e : BitmapElement W N} {i : Nat} (on : e.has i) :
    ∃ (j : Fin N) (k : Nat), k < W ∧ i = j * W + k ∧ (e.bits j).getLsbD k = true := by
  obtain ⟨h, on⟩ := has_iff.mp on
  refine ⟨⟨i / W, h⟩, i % W, BitVec.lt_of_getLsbD on, ?_, on⟩
  rw [Nat.mul_comm]
  exact (Nat.div_add_mod i W).symm

theorem has_set {e : BitmapElement W N} (i : Fin (W * N)) {k : Nat} :
    (e.set i).has k ↔ k = i ∨ e.has k := by
  have words : ∀ j : Fin (W * N), (e.set i).test j = (decide (j = i) || e.test j) := by
    intro j
    rw [test_eq, test_eq]
    unfold set
    by_cases same : word j = word i
    · rw [same]
      dsimp only
      rw [Function.update_self, BitVec.getLsbD_or, getLsbD_mask, Bool.or_comm]
      congr 1
      rw [decide_eq_decide, ← word_eq (i := j)]
      exact ⟨fun here => ⟨same, here⟩, fun both => both.2⟩
    · have apart : j ≠ i := fun eq => same (eq ▸ rfl)
      show (Function.update e.bits (word i) _ (word j)).getLsbD _ = _
      rw [Function.update_of_ne same, decide_eq_false apart, Bool.false_or]
  unfold has
  simp only [words, Bool.or_eq_true, decide_eq_true_eq]
  constructor
  · rintro ⟨h, same | on⟩
    · exact .inl (congrArg Fin.val same)
    · exact .inr ⟨h, on⟩
  · rintro (rfl | ⟨h, on⟩)
    · exact ⟨i.isLt, .inl rfl⟩
    · exact ⟨h, .inr on⟩

theorem has_reset {e : BitmapElement W N} (i : Fin (W * N)) {k : Nat} :
    (e.reset i).has k ↔ k ≠ i ∧ e.has k := by
  have words : ∀ j : Fin (W * N), (e.reset i).test j = (!decide (j = i) && e.test j) := by
    intro j
    rw [test_eq, test_eq]
    unfold reset
    by_cases same : word j = word i
    · rw [same]
      dsimp only
      rw [Function.update_self, BitVec.getLsbD_and, BitVec.getLsbD_not, getLsbD_mask,
        Bool.and_comm, decide_eq_true (place_lt j), Bool.true_and]
      congr 2
      rw [decide_eq_decide, ← word_eq (i := j)]
      exact ⟨fun here => ⟨same, here⟩, fun both => both.2⟩
    · have apart : j ≠ i := fun eq => same (eq ▸ rfl)
      show (Function.update e.bits (word i) _ (word j)).getLsbD _ = _
      rw [Function.update_of_ne same, decide_eq_false apart, Bool.not_false, Bool.true_and]
  unfold has
  simp only [words, Bool.and_eq_true, Bool.not_eq_true', decide_eq_false_iff_not]
  constructor
  · rintro ⟨h, other, on⟩
    exact ⟨fun same => other (Fin.ext same), h, on⟩
  · rintro ⟨other, h, on⟩
    exact ⟨h, fun same => other (congrArg Fin.val same), on⟩

theorem bits_eq_zero {e : BitmapElement W N} : (∀ j, e.bits j = 0) ↔ ∀ i, ¬ e.has i := by
  constructor
  · intro zero i on
    obtain ⟨h, on⟩ := has_iff.mp on
    rw [zero] at on
    simp at on
  · intro off j
    refine BitVec.eq_of_getLsbD_eq fun k low => ?_
    rw [Bool.eq_false_of_not_eq_true fun on => off _ ((has_place j low).mpr on)]
    simp

theorem empty_iff {e : BitmapElement W N} : e.empty ↔ ∀ i, ¬ e.has i := by
  rw [← bits_eq_zero]
  simp [empty]

theorem not_has_new {idx i : Nat} : ¬ (new idx : BitmapElement W N).has i :=
  bits_eq_zero.mp (fun _ => rfl) i

theorem bits_ext {e e' : BitmapElement W N} (same : ∀ i, e.has i ↔ e'.has i) :
    e.bits = e'.bits := by
  funext j
  refine BitVec.eq_of_getLsbD_eq fun k low => ?_
  rw [Bool.eq_iff_iff, ← has_place j low, ← has_place j low]
  exact same _

theorem ext_has {e e' : BitmapElement W N} (index : e.index = e'.index)
    (same : ∀ i, e.has i ↔ e'.has i) : e = e' := by
  have bits := bits_ext same
  obtain ⟨index₁, bits₁⟩ := e
  subst index
  subst bits
  rfl

theorem equals_iff {e e' : BitmapElement W N} : e.equals e' = true ↔ e = e' := by
  unfold equals
  constructor
  · intro equal
    split at equal
    · cases equal
    · rename_i index
      have bits : e.bits = e'.bits :=
        funext fun j => eq_of_beq (List.all_eq_true.mp equal j (List.mem_finRange j))
      obtain ⟨index₁, bits₁⟩ := e
      obtain rfl : index₁ = e'.index := not_not.mp index
      subst bits
      rfl
  · rintro rfl
    simp

/-! ### Loops over words -/

section Combine
variable {op : BitVec W → BitVec W → BitVec W} {rhs : Fin N → BitVec W}

theorem foldl_combineWord {words : List (Fin N)} (nodup : words.Nodup) (r : Combined W N) :
    let r' := words.foldl (combineWord op rhs) r
    (∀ j, r'.bits j = if j ∈ words then op (r.bits j) (rhs j) else r.bits j) ∧
      (r'.changed = true ↔ r.changed = true ∨ ∃ j ∈ words, op (r.bits j) (rhs j) ≠ r.bits j) ∧
      (r'.allzero = true ↔ r.allzero = true ∧ ∀ j ∈ words, op (r.bits j) (rhs j) = 0) := by
  induction words generalizing r with
  | nil => simp
  | cons j words ih =>
    obtain ⟨notIn, rest⟩ := List.nodup_cons.mp nodup
    obtain ⟨bits, changed, allzero⟩ := ih rest (combineWord op rhs r j)
    have others : ∀ k ∈ words, (combineWord op rhs r j).bits k = r.bits k := by
      intro k mem
      have apart : k ≠ j := by
        rintro rfl
        exact notIn mem
      exact Function.update_of_ne apart _ _
    refine ⟨fun k => ?_, ?_, ?_⟩
    · rw [List.foldl_cons, bits k]
      by_cases here : k = j
      · subst here
        rw [if_neg notIn, if_pos List.mem_cons_self]
        exact Function.update_self ..
      · by_cases later : k ∈ words
        · rw [if_pos later, if_pos (List.mem_cons_of_mem j later), others k later]
        · rw [if_neg later, if_neg (by simp [here, later])]
          exact Function.update_of_ne here _ _
    · rw [List.foldl_cons, changed]
      simp only [List.mem_cons, or_and_right, exists_or, exists_eq_left]
      have now : (combineWord op rhs r j).changed = true ↔
          r.changed = true ∨ op (r.bits j) (rhs j) ≠ r.bits j := by
        unfold combineWord
        cases r.changed with
        | true => exact iff_of_true rfl (.inl rfl)
        | false =>
          by_cases same : r.bits j = op (r.bits j) (rhs j)
          · simp [← same]
          · simp [same, Ne.symm same]
      rw [now, or_assoc]
      refine or_congr_right (or_congr_right ?_)
      exact exists_congr fun k => and_congr_right fun mem => by rw [others k mem]
    · rw [List.foldl_cons, allzero, List.forall_mem_cons]
      have now : (combineWord op rhs r j).allzero = true ↔
          r.allzero = true ∧ op (r.bits j) (rhs j) = 0 := by
        show (if op (r.bits j) (rhs j) != 0 then false else r.allzero) = true ↔ _
        by_cases zero : op (r.bits j) (rhs j) = 0
        · rw [if_neg fun some => bne_iff_ne.mp some zero]
          exact (and_iff_left zero).symm
        · rw [if_pos (bne_iff_ne.mpr zero)]
          exact iff_of_false nofun fun both => zero both.2
      rw [now, and_assoc]
      refine and_congr_right fun _ => and_congr_right fun _ => ?_
      exact forall_congr' fun k => imp_congr_right fun mem => by rw [others k mem]

theorem combine_spec (e f : BitmapElement W N) :
    (combine op e f).bits = (fun j => op (e.bits j) (f.bits j)) ∧
      ((combine op e f).changed = true ↔ ∃ j, op (e.bits j) (f.bits j) ≠ e.bits j) ∧
      ((combine op e f).allzero = true ↔ ∀ j, op (e.bits j) (f.bits j) = 0) := by
  have all := @foldl_combineWord W N op f.bits (List.finRange N) (List.nodup_finRange N)
    ⟨e.bits, false, true⟩
  simp only [List.mem_finRange, if_true, true_and, Bool.false_eq_true, false_or,
    forall_const] at all
  exact ⟨funext all.1, all.2.1, all.2.2⟩

end Combine
section Results
variable {op : BitVec W → BitVec W → BitVec W} {e f : BitmapElement W N} {i : Nat}

theorem changed_iff : (combine op e f).changed = true ↔
    ∃ i, ¬ (({ e with bits := (combine op e f).bits } : BitmapElement W N).has i ↔ e.has i) := by
  obtain ⟨bits, changed, _⟩ := @combine_spec W N op e f
  rw [changed]
  constructor
  · rintro ⟨j, differs⟩
    by_contra none
    have same : ∀ i, ({ e with bits := (combine op e f).bits } : BitmapElement W N).has i ↔
        e.has i := fun i => by_contra fun other => none ⟨i, other⟩
    exact differs ((congrFun bits j).symm.trans (congrFun (bits_ext same) j))
  · rintro ⟨i, differs⟩
    by_contra none
    have unchanged : (combine op e f).bits = e.bits := by
      rw [bits]
      exact funext fun j => by_contra fun other => none ⟨j, other⟩
    exact differs (by rw [unchanged])

theorem allzero_iff : (combine op e f).allzero = true ↔
    ∀ i, ¬ ({ e with bits := (combine op e f).bits } : BitmapElement W N).has i := by
  obtain ⟨bits, _, allzero⟩ := @combine_spec W N op e f
  rw [allzero, ← bits_eq_zero, bits]

theorem has_unionWith : (e.unionWith f).1.has i ↔ e.has i ∨ f.has i := by
  rw [has_iff, has_iff, has_iff, ← exists_or]
  refine exists_congr fun h => ?_
  show ((combine (· ||| ·) e f).bits _).getLsbD _ = true ↔ _
  rw [(combine_spec e f).1, BitVec.getLsbD_or, Bool.or_eq_true]

theorem has_intersectWith : (e.intersectWith f).1.has i ↔ e.has i ∧ f.has i := by
  rw [has_iff, has_iff, has_iff]
  have words : ∀ h : i / W < N, (((e.intersectWith f).1.bits ⟨i / W, h⟩).getLsbD (i % W) = true ↔
      (e.bits ⟨i / W, h⟩).getLsbD (i % W) = true ∧ (f.bits ⟨i / W, h⟩).getLsbD (i % W) = true) := by
    intro h
    show ((combine (· &&& ·) e f).bits _).getLsbD _ = true ↔ _
    rw [(combine_spec e f).1, BitVec.getLsbD_and, Bool.and_eq_true]
  simp only [words]
  exact ⟨fun ⟨h, one, two⟩ => ⟨⟨h, one⟩, h, two⟩, fun ⟨⟨h, one⟩, _, two⟩ => ⟨h, one, two⟩⟩

theorem has_intersectWithComplement :
    (e.intersectWithComplement f).1.has i ↔ e.has i ∧ ¬ f.has i := by
  rw [has_iff, has_iff, has_iff]
  have words : ∀ h : i / W < N, (((e.intersectWithComplement f).1.bits ⟨i / W, h⟩).getLsbD
      (i % W) = true ↔ (e.bits ⟨i / W, h⟩).getLsbD (i % W) = true ∧
        ¬ (f.bits ⟨i / W, h⟩).getLsbD (i % W) = true) := by
    intro h
    show ((combine (fun a b => a &&& ~~~ b) e f).bits _).getLsbD _ = true ↔ _
    rw [(combine_spec e f).1, BitVec.getLsbD_and, BitVec.getLsbD_not, Bool.and_eq_true,
      Bool.and_eq_true, Bool.not_eq_true', Bool.not_eq_true]
    exact and_congr_right fun on => and_iff_right (decide_eq_true (BitVec.lt_of_getLsbD on))
  simp only [words]
  exact ⟨fun ⟨h, one, two⟩ => ⟨⟨h, one⟩, fun ⟨_, on⟩ => two on⟩,
    fun ⟨⟨h, one⟩, two⟩ => ⟨h, one, fun on => two ⟨h, on⟩⟩⟩

theorem unionWith_changed : (e.unionWith f).2 = true ↔ ∃ i, f.has i ∧ ¬ e.has i := by
  refine changed_iff.trans (exists_congr fun i => ?_)
  have here : ({ e with bits := (combine (· ||| ·) e f).bits } : BitmapElement W N).has i ↔ _ :=
    has_unionWith
  rw [here]
  tauto

theorem intersectWith_changed : (e.intersectWith f).2.1 = true ↔ ∃ i, e.has i ∧ ¬ f.has i := by
  refine changed_iff.trans (exists_congr fun i => ?_)
  have here : ({ e with bits := (combine (· &&& ·) e f).bits } : BitmapElement W N).has i ↔ _ :=
    has_intersectWith
  rw [here]
  tauto

theorem intersectWithComplement_changed :
    (e.intersectWithComplement f).2.1 = true ↔ ∃ i, e.has i ∧ f.has i := by
  refine changed_iff.trans (exists_congr fun i => ?_)
  have here : ({ e with bits := (combine (fun a b => a &&& ~~~ b) e f).bits } :
    BitmapElement W N).has i ↔ _ := has_intersectWithComplement
  rw [here]
  tauto

end Results

/-! ### The next bit -/

def Least (P : Nat → Prop) : Option Nat → Prop
  | none => ∀ k, ¬ P k
  | some i => P i ∧ ∀ k, k < i → ¬ P k

theorem countTrailingZeros_spec {w : BitVec W} (some : w ≠ 0) : countTrailingZeros w < W ∧
    w.getLsbD (countTrailingZeros w) = true ∧
    ∀ k, k < countTrailingZeros w → ¬ w.getLsbD k = true := by
  unfold countTrailingZeros
  cases found : (List.range W).find? fun i => w.getLsbD i with
  | none =>
    have off := List.find?_eq_none.mp found
    refine absurd (BitVec.eq_of_getLsbD_eq fun k low => ?_) some
    rw [Bool.eq_false_of_not_eq_true (off k (List.mem_range.mpr low))]
    simp
  | some i =>
    obtain ⟨on, before, after, split, first⟩ := List.find?_eq_some_iff_append.mp found
    have ascending : (before ++ i :: after).Pairwise (· < ·) := split ▸ List.pairwise_lt_range
    refine ⟨List.mem_range.mp (List.mem_of_find?_eq_some found), on, fun k low => ?_⟩
    have inRange : k < W :=
      Nat.lt_trans low (List.mem_range.mp (List.mem_of_find?_eq_some found))
    have mem : k ∈ before ++ i :: after := split ▸ List.mem_range.mpr inRange
    rcases List.mem_append.mp mem with here | later
    · simpa using first k here
    · rcases List.mem_cons.mp later with rfl | later
      · exact absurd low (Nat.lt_irrefl _)
      · have above := (List.pairwise_cons.mp (List.pairwise_append.mp ascending).2.1).1 k later
        exact absurd (Nat.lt_trans low above) (Nat.lt_irrefl _)

theorem scan_least {e : BitmapElement W N} {words : List (Fin N)}
    (ascending : words.Pairwise (· < ·)) :
    Least (fun k => (∃ j ∈ words, k / W = j.val) ∧ e.has k) (words.findSome? fun j =>
      if e.bits j != 0 then some (j * W + countTrailingZeros (e.bits j)) else none) := by
  induction words with
  | nil => exact fun k ⟨⟨j, mem, _⟩, _⟩ => nomatch mem
  | cons j words ih =>
    obtain ⟨above, rest⟩ := List.pairwise_cons.mp ascending
    rw [List.findSome?_cons]
    by_cases zero : e.bits j = 0
    · -- the word has no bit
      have off : ∀ k, k / W = j.val → ¬ e.has k := by
        intro k here on
        obtain ⟨h, bit⟩ := has_iff.mp on
        have same : (⟨k / W, h⟩ : Fin N) = j := Fin.ext here
        rw [same, zero] at bit
        simp at bit
      have skip : ∀ k, ((∃ i ∈ j :: words, k / W = i.val) ∧ e.has k) ↔
          ((∃ i ∈ words, k / W = i.val) ∧ e.has k) := by
        intro k
        constructor
        · rintro ⟨⟨i, mem, here⟩, on⟩
          rcases List.mem_cons.mp mem with rfl | mem
          · exact absurd on (off k here)
          · exact ⟨⟨i, mem, here⟩, on⟩
        · rintro ⟨⟨i, mem, here⟩, on⟩
          exact ⟨⟨i, List.mem_cons_of_mem j mem, here⟩, on⟩
      simp only [zero, bne_self_eq_false, Bool.false_eq_true, ↓reduceIte, skip]
      exact ih rest
    · obtain ⟨low, on, first⟩ := countTrailingZeros_spec zero
      rw [if_pos (bne_iff_ne.mpr zero)]
      have quotient : (j.val * W + countTrailingZeros (e.bits j)) / W = j := by
        rw [Nat.mul_comm, Nat.mul_add_div (by omega), Nat.div_eq_of_lt low, Nat.add_zero]
      refine ⟨⟨⟨j, List.mem_cons_self, quotient⟩, (has_place j low).mpr on⟩, ?_⟩
      rintro k before ⟨⟨i, mem, here⟩, bit⟩
      have split := Nat.div_add_mod k W
      rcases List.mem_cons.mp mem with rfl | mem
      · rw [here, Nat.mul_comm] at split
        have place : k % W < countTrailingZeros (e.bits i) := by omega
        refine first _ place ((has_place i (Nat.lt_trans place low)).mp ?_)
        rw [split]
        exact bit
      · have later : j.val + 1 ≤ k / W := by
          rw [here]
          exact above i mem
        have beyond := Nat.mul_le_mul_left W later
        rw [Nat.mul_comm W (j.val + 1), Nat.add_mul] at beyond
        omega

theorem find_first_least (e : BitmapElement W N) : Least e.has e.find_first := by
  have all := scan_least (e := e) (List.pairwise_lt_finRange N)
  have inWords : ∀ k, ((∃ j ∈ List.finRange N, k / W = j.val) ∧ e.has k) ↔ e.has k := by
    intro k
    refine and_iff_right_of_imp fun on => ?_
    obtain ⟨h, _⟩ := has_iff.mp on
    exact ⟨⟨k / W, h⟩, List.mem_finRange _, rfl⟩
  simp only [inWords] at all
  exact all

theorem find_next_least (e : BitmapElement W N) (curr : Nat) :
    Least (fun k => curr ≤ k ∧ e.has k) (e.find_next curr) := by
  unfold find_next
  split
  · rename_i inside
    have wide : 0 < W := Nat.pos_of_ne_zero fun none => by
      rw [none, Nat.zero_mul] at inside
      omega
    have here := Nat.div_add_mod curr W
    have place := Nat.mod_lt curr wide
    let wordPos : Fin N := word ⟨curr, inside⟩
    let copy := e.bits wordPos &&& (BitVec.allOnes W <<< (curr % W))
    have copied : ∀ k, k < W →
        (copy.getLsbD k = true ↔ (e.bits wordPos).getLsbD k = true ∧ curr % W ≤ k) := by
      intro k low
      rw [BitVec.getLsbD_and, Bool.and_eq_true]
      refine and_congr_right fun _ => ?_
      rw [BitVec.getLsbD_shiftLeft, BitVec.getLsbD_allOnes]
      simp only [low, decide_true, Bool.true_and, Bool.and_eq_true, Bool.not_eq_true',
        decide_eq_false_iff_not, decide_eq_true_eq]
      omega
    by_cases zero : copy = 0
    · -- nothing is left in this word
      have later : ∀ k, ((∃ j ∈ (List.finRange N).filter fun j => wordPos < j, k / W = j.val) ∧
          e.has k) ↔ curr ≤ k ∧ e.has k := by
        intro k
        refine and_congr_left fun on => ?_
        obtain ⟨h, bit⟩ := has_iff.mp on
        have split := Nat.div_add_mod k W
        constructor
        · rintro ⟨j, mem, isWord⟩
          have above : curr / W + 1 ≤ k / W := by
            have above : wordPos < j := of_decide_eq_true (List.mem_filter.mp mem).2
            rw [isWord]
            exact above
          have beyond := Nat.mul_le_mul_left W above
          rw [Nat.mul_add, Nat.mul_one] at beyond
          omega
        · intro low
          refine ⟨⟨k / W, h⟩, List.mem_filter.mpr ⟨List.mem_finRange _, ?_⟩, rfl⟩
          have notBelow : curr / W ≤ k / W := Nat.div_le_div_right low
          have notHere : k / W ≠ curr / W := by
            intro same
            have there : (⟨k / W, h⟩ : Fin N) = wordPos := Fin.ext same
            rw [same] at split
            have on := (copied (k % W) (Nat.mod_lt k wide)).mpr ⟨there ▸ bit, by omega⟩
            rw [zero] at on
            simp at on
          have above : curr / W < k / W := by omega
          exact decide_eq_true above
      have rest := scan_least (e := e) ((List.pairwise_lt_finRange N).filter fun j => wordPos < j)
      simp only [later] at rest
      rw [if_neg fun some => bne_iff_ne.mp some zero]
      exact rest
    · obtain ⟨low, on, first⟩ := countTrailingZeros_spec zero
      obtain ⟨bit, notBelow⟩ := (copied _ low).mp on
      rw [if_pos (bne_iff_ne.mpr zero)]
      have isWord : wordPos.val = curr / W := rfl
      refine ⟨⟨?_, (has_place wordPos low).mpr bit⟩, ?_⟩
      · show curr ≤ wordPos.val * W + countTrailingZeros copy
        rw [isWord, Nat.mul_comm]
        omega
      · rintro k before ⟨least, has⟩
        have before : k < wordPos.val * W + countTrailingZeros copy := before
        obtain ⟨h, there⟩ := has_iff.mp has
        have split := Nat.div_add_mod k W
        have notBefore : curr / W ≤ k / W := Nat.div_le_div_right least
        have sameWord : k / W = curr / W := by
          by_contra other
          have beyond := Nat.mul_le_mul_left W (show curr / W + 1 ≤ k / W by omega)
          rw [Nat.mul_add, Nat.mul_one] at beyond
          rw [isWord, Nat.mul_comm] at before
          omega
        have isHere : (⟨k / W, h⟩ : Fin N) = wordPos := Fin.ext sameWord
        rw [sameWord] at split
        rw [isWord, Nat.mul_comm] at before
        exact first (k % W) (by omega)
          ((copied _ (Nat.mod_lt k wide)).mpr ⟨isHere ▸ there, by omega⟩)
  · rename_i outside
    rintro k ⟨low, h, _⟩
    omega

/-! ### Counting -/

theorem count_eq (e : BitmapElement W N) : e.count = (Finset.univ.sigma fun j : Fin N =>
    (Finset.range W).filter fun k => (e.bits j).getLsbD k = true).card := by
  have sums : ∀ (words : List (Fin N)) (n : Nat),
      words.foldl (fun numBits j => numBits + countPopulation (e.bits j)) n =
        n + (words.map fun j => countPopulation (e.bits j)).sum := by
    intro words
    induction words with
    | nil => exact fun n => rfl
    | cons j words ih =>
      intro n
      rw [List.foldl_cons, ih, List.map_cons, List.sum_cons, Nat.add_assoc]
  rw [Finset.card_sigma, Fin.sum_univ_def]
  unfold count
  rw [sums, Nat.zero_add]
  congr 2
  funext j
  unfold countPopulation
  rw [List.countP_eq_length_filter]
  simp only [Finset.card_def, Finset.filter_val, Finset.range_val, Multiset.range,
    Multiset.filter_coe, Multiset.coe_card, Bool.decide_eq_true]

theorem count_one_iff (e : BitmapElement W N) : e.count = 1 ↔ ∃ i, ∀ k, e.has k ↔ k = i := by
  rw [count_eq, Finset.card_eq_one]
  constructor
  · rintro ⟨⟨j, i⟩, single⟩
    have mem : ∀ (j' : Fin N) k, k < W → ((e.bits j').getLsbD k = true ↔
        (⟨j', k⟩ : (_ : Fin N) × Nat) = ⟨j, i⟩) := by
      intro j' k low
      have here := Finset.ext_iff.mp single ⟨j', k⟩
      rw [Finset.mem_singleton] at here
      rw [← here]
      simp [low]
    have there := Finset.ext_iff.mp single ⟨j, i⟩
    simp only [Finset.mem_sigma, Finset.mem_univ, Finset.mem_filter, Finset.mem_range, true_and,
      Finset.mem_singleton, iff_true] at there
    refine ⟨j * W + i, fun k => ?_⟩
    constructor
    · intro on
      obtain ⟨j', k', low, rfl, bit⟩ := place_of_has on
      have same := (mem j' k' low).mp bit
      obtain ⟨rfl, rfl⟩ := Sigma.mk.inj_iff.mp same
      rfl
    · rintro rfl
      exact (has_place j there.1).mpr there.2
  · rintro ⟨i, only⟩
    obtain ⟨j, k, low, rfl, bit⟩ := place_of_has ((only i).mpr rfl)
    refine ⟨⟨j, k⟩, Finset.ext fun ⟨j', k'⟩ => ?_⟩
    simp only [Finset.mem_sigma, Finset.mem_univ, Finset.mem_filter, Finset.mem_range, true_and,
      Finset.mem_singleton]
    constructor
    · rintro ⟨low', on⟩
      have same := (only _).mp ((has_place j' low').mpr on)
      have wide : 0 < W := by omega
      have words := congrArg (· / W) same
      have places := congrArg (· % W) same
      simp only [Nat.mul_comm _ W, Nat.mul_add_div wide, Nat.div_eq_of_lt low,
        Nat.div_eq_of_lt low', Nat.add_zero] at words
      simp only [Nat.mul_comm _ W, Nat.mul_add_mod, Nat.mod_eq_of_lt low,
        Nat.mod_eq_of_lt low'] at places
      rw [Fin.ext words, places]
    · intro same
      obtain ⟨rfl, rfl⟩ := Sigma.mk.inj_iff.mp same
      exact ⟨low, bit⟩

end BitmapElement
end ProgramSlicer.PtrAnalysis
