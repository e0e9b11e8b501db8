import Mathlib.Algebra.GroupWithZero.NeZero
import ProgramSlicer.Library.SortedBlocks
import ProgramSlicer.PtrAnalysis.BitmapElement

/-!
Sparse bitmaps: the elements that have a bit, by ascending index, and the position of the element
that was used last, from which the next search starts. What they are for is sets of numbers: the
edges and the constraints of each node of the field-sensitive pointer analysis.
-/
namespace ProgramSlicer.PtrAnalysis
open SortedBlocks
variable {W N : Nat}

/-- `MySparseBitVector`. An iterator is a position, and the length of the list is its end. -/
structure Bitmap (W N : Nat) where
  elements : List (BitmapElement W N)
  currElementIter : Nat

namespace Bitmap

def new : Bitmap W N := ⟨[], 0⟩

def searchBack (elements : List (BitmapElement W N)) (elementIndex : Nat) : Nat → Nat
  | 0 => 0
  | i + 1 =>
    match elements[i + 1]? with
    | some e => if e.index > elementIndex then searchBack elements elementIndex i else i + 1
    | none => i + 1

def searchOn (elementIndex : Nat) : List (BitmapElement W N) → Nat → Nat
  | [], i => i
  | e :: rest, i => if e.index < elementIndex then searchOn elementIndex rest (i + 1) else i

def findLowerBound (b : Bitmap W N) (elementIndex : Nat) : Nat × Bitmap W N :=
  if b.elements.isEmpty then (0, { b with currElementIter := 0 })
  else
    let curr := if b.currElementIter = b.elements.length then b.currElementIter - 1
      else b.currElementIter
    match b.elements[curr]? with
    | none => (curr, { b with currElementIter := curr })
    | some e =>
      let elementIter :=
        if e.index = elementIndex then curr
        else if e.index > elementIndex then searchBack b.elements elementIndex curr
        else searchOn elementIndex (b.elements.drop curr) curr
      (elementIter, { b with currElementIter := elementIter })

section Bits
variable [NeZero (W * N)]

def place (idx : Nat) : Fin (W * N) := Fin.ofNat (W * N) idx

def test (b : Bitmap W N) (idx : Nat) : Bool × Bitmap W N :=
  if b.elements.isEmpty then (false, b)
  else
    let elementIndex := idx / (W * N)
    let (elementIter, b) := b.findLowerBound elementIndex
    match b.elements[elementIter]? with
    | none => (false, b)
    | some e => if e.index ≠ elementIndex then (false, b) else (e.test (place idx), b)

/-- An element without bits is deleted. The next one, which becomes the current one, stands at its
position then. -/
def reset (b : Bitmap W N) (idx : Nat) : Bitmap W N :=
  if b.elements.isEmpty then b
  else
    let elementIndex := idx / (W * N)
    let (elementIter, b) := b.findLowerBound elementIndex
    match b.elements[elementIter]? with
    | none => b
    | some e =>
      if e.index ≠ elementIndex then b
      else if (e.reset (place idx)).empty then
        { b with elements := b.elements.eraseIdx elementIter }
      else { b with elements := b.elements.set elementIter (e.reset (place idx)) }

def insertElement (b : Bitmap W N) (elementIter idx : Nat) : Bitmap W N :=
  let element := (BitmapElement.new (idx / (W * N))).set (place idx)
  { elements := b.elements.insertIdx elementIter element, currElementIter := elementIter }

/-- The search may have hit the beginning, and the element is inserted after the one found then. -/
def set (b : Bitmap W N) (idx : Nat) : Bitmap W N :=
  if b.elements.isEmpty then b.insertElement b.elements.length idx
  else
    let elementIndex := idx / (W * N)
    let (elementIter, b) := b.findLowerBound elementIndex
    match b.elements[elementIter]? with
    | none => b.insertElement elementIter idx
    | some e =>
      if e.index ≠ elementIndex then
        if e.index < elementIndex then b.insertElement (elementIter + 1) idx
        else b.insertElement elementIter idx
      else
        { elements := b.elements.set elementIter (e.set (place idx))
          currElementIter := elementIter }

def test_and_set (b : Bitmap W N) (idx : Nat) : Bool × Bitmap W N :=
  let (old, b) := b.test idx
  if !old then (true, b.set idx) else (false, b)

end Bits

def equalElements : List (BitmapElement W N) → List (BitmapElement W N) → Bool
  | e :: l, f :: l' => if e.differs f then false else equalElements l l'
  | [], [] => true
  | _, _ => false

def equals (b rhs : Bitmap W N) : Bool := equalElements b.elements rhs.elements

def copy (rhs : Bitmap W N) : Bitmap W N := ⟨rhs.elements, 0⟩

def clear : Bitmap W N := ⟨[], 0⟩

/-- `operator=`, to another bitmap: the current element is the end, as it was when the list was
empty. -/
def assign (rhs : Bitmap W N) : Bitmap W N := ⟨rhs.elements, rhs.elements.length⟩

/-- An element that is only on the right is copied. -/
def union : Merge (BitmapElement W N) where
  left e := (some e, false)
  right f := (some f, true)
  both e f := let (e, changed) := e.unionWith f; (some e, changed)

def unite (b rhs : Bitmap W N) : Bool × Bitmap W N :=
  if rhs.elements.isEmpty then (false, b)
  else
    let (elements, changed) := union.merge BitmapElement.index b.elements rhs.elements
    (changed, ⟨elements, 0⟩)

/-- An element that is only on the left is erased, which is not counted as a change. -/
def intersection : Merge (BitmapElement W N) where
  left _ := (none, false)
  right _ := (none, false)
  both e f :=
    let (e, changed, becameZero) := e.intersectWith f
    (if becameZero then none else some e, changed)

def intersect (b rhs : Bitmap W N) : Bool × Bitmap W N :=
  if b.elements.isEmpty && rhs.elements.isEmpty then (false, b)
  else
    let (elements, changed) := intersection.merge BitmapElement.index b.elements rhs.elements
    (changed, ⟨elements, 0⟩)

def complement : Merge (BitmapElement W N) where
  left e := (some e, false)
  right _ := (none, false)
  both e f :=
    let (e, changed, becameZero) := e.intersectWithComplement f
    (if becameZero then none else some e, changed)

def intersectWithComplement (b rhs : Bitmap W N) : Bool × Bitmap W N :=
  if b.elements.isEmpty || rhs.elements.isEmpty then (false, b)
  else
    let (elements, changed) := complement.merge BitmapElement.index b.elements rhs.elements
    (changed, ⟨elements, 0⟩)

def empty (b : Bitmap W N) : Bool := b.elements.isEmpty

/-- The index of the element after the first is that of the sentinel if there is no other. -/
def single_bit_p (b : Bitmap W N) : Bool :=
  match b.elements with
  | [e] => e.count == 1
  | _ => false

/-! ### The search -/

/-- Where the search for an index ends: at its element, at the first one above or at the last one
below. -/
inductive Bound (t : Nat) : List (BitmapElement W N) → Nat → Prop
  | found {before e after} (here : e.index = t) : Bound t (before ++ e :: after) before.length
  | above {before after} (low : ∀ e ∈ before, e.index < t) (high : ∀ e ∈ after, t < e.index) :
      Bound t (before ++ after) before.length
  | below {before e after} (here : e.index < t) (high : ∀ e ∈ after, t < e.index) :
      Bound t (before ++ e :: after) before.length

theorem searchBack_bound {t : Nat} {before after : List (BitmapElement W N)} {e : BitmapElement W N}
    (high : ∀ c ∈ after, t < c.index) :
    Bound t (before ++ e :: after) (searchBack (before ++ e :: after) t before.length) := by
  induction before using List.reverseRecOn generalizing e after with
  | nil =>
    rcases Nat.lt_trichotomy e.index t with low | here | above
    · exact @Bound.below W N t [] e after low high
    · exact @Bound.found W N t [] e after here
    · exact @Bound.above W N t [] (e :: after) nofun (List.forall_mem_cons.mpr ⟨above, high⟩)
  | append_singleton before a ih =>
    have there : (before ++ [a] ++ e :: after)[before.length + 1]? = some e := by
      rw [List.getElem?_append_right (by simp)]
      simp
    rw [List.length_append, List.length_singleton]
    unfold searchBack
    simp only [there]
    split
    · rename_i above
      rw [List.append_assoc]
      exact ih (List.forall_mem_cons.mpr ⟨above, high⟩)
    · rename_i notAbove
      have stop : before.length + 1 = (before ++ [a]).length := by simp
      rw [stop]
      rcases Nat.lt_or_eq_of_le (Nat.le_of_not_lt notAbove) with low | here
      · exact .below low high
      · exact .found here

theorem searchOn_bound {t : Nat} {before rest : List (BitmapElement W N)}
    (sorted : Sorted BitmapElement.index (before ++ rest)) (low : ∀ e ∈ before, e.index < t) :
    Bound t (before ++ rest) (searchOn t rest before.length) := by
  induction rest generalizing before with
  | nil => exact .above low nofun
  | cons e rest ih =>
    unfold searchOn
    split
    · rename_i below
      have again := @ih (before ++ [e]) (by rwa [List.append_assoc])
        (List.forall_mem_append.mpr ⟨low, List.forall_mem_singleton.mpr below⟩)
      rw [List.append_assoc, List.length_append] at again
      exact again
    · rename_i notBelow
      rcases Nat.lt_or_eq_of_le (Nat.le_of_not_lt notBelow) with above | here
      · have later := (sorted_middle.mp sorted).2.2
        refine .above low (List.forall_mem_cons.mpr ⟨above, fun c mem => ?_⟩)
        exact Nat.lt_trans above (later c mem)
      · exact .found here.symm

theorem findLowerBound_spec {b : Bitmap W N} (sorted : Sorted BitmapElement.index b.elements)
    (some : b.elements ≠ []) (inside : b.currElementIter ≤ b.elements.length) (t : Nat) :
    ∃ p, b.findLowerBound t = (p, { b with currElementIter := p }) ∧ Bound t b.elements p := by
  obtain ⟨elements, iter⟩ := b
  unfold findLowerBound
  rw [if_neg (by simpa using some)]
  extract_lets curr
  have low : curr < elements.length := by
    have pos : 0 < elements.length := List.length_pos_of_ne_nil some
    dsimp only [curr] at inside ⊢
    split <;> omega
  obtain ⟨before, e, after, rfl, at_curr⟩ : ∃ before e after,
      elements = before ++ e :: after ∧ before.length = curr :=
    ⟨elements.take curr, elements[curr], elements.drop (curr + 1), by simp, by
      rw [List.length_take]; omega⟩
  have there : (before ++ e :: after)[curr]? = Option.some e := by
    rw [← at_curr]
    simp
  have rest : (before ++ e :: after).drop curr = e :: after := by
    rw [← at_curr]
    simp
  obtain ⟨_, earlier, later⟩ := sorted_middle.mp sorted
  simp only [there, rest]
  refine ⟨_, rfl, ?_⟩
  split
  · rename_i here
    exact at_curr ▸ .found here
  · split
    · rename_i above
      rw [← at_curr]
      exact searchBack_bound fun c mem => Nat.lt_trans above (later c mem)
    · rename_i notHere notAbove
      have below : e.index < t := by omega
      rw [← at_curr]
      exact searchOn_bound sorted fun c mem => Nat.lt_trans (earlier c mem) below

/-! ### The bits that are set -/

def hasIn (l : List (BitmapElement W N)) (n : Nat) : Prop :=
  ∃ e ∈ l, e.index = n / (W * N) ∧ e.has (n % (W * N))

def has (b : Bitmap W N) (n : Nat) : Prop := hasIn b.elements n

/-- Ascending, no element without bits, and a current position. -/
structure WellFormed (b : Bitmap W N) : Prop where
  sorted : Sorted BitmapElement.index b.elements
  inhabited : ∀ e ∈ b.elements, ∃ i, e.has i
  inside : b.currElementIter ≤ b.elements.length

theorem new_wellFormed : (new : Bitmap W N).WellFormed := ⟨.nil, nofun, Nat.le_refl 0⟩

section Middle
variable {before after : List (BitmapElement W N)} {e : BitmapElement W N} {n : Nat}

theorem getElem?_middle : (before ++ e :: after)[before.length]? = some e := by simp

theorem set_middle {e' : BitmapElement W N} :
    (before ++ e :: after).set before.length e' = before ++ e' :: after := by simp

theorem eraseIdx_middle : (before ++ e :: after).eraseIdx before.length = before ++ after := by
  rw [List.eraseIdx_append_of_length_le (Nat.le_refl _), Nat.sub_self]
  rfl

theorem insertIdx_middle : (before ++ after).insertIdx before.length e = before ++ e :: after := by
  induction before with
  | nil => rfl
  | cons a before ih => exact congrArg (a :: ·) ih

theorem hasIn_append : hasIn (before ++ after) n ↔ hasIn before n ∨ hasIn after n := by
  unfold hasIn
  simp only [List.mem_append, or_and_right, exists_or]

theorem hasIn_cons : hasIn (e :: after) n ↔
    (e.index = n / (W * N) ∧ e.has (n % (W * N))) ∨ hasIn after n := by
  unfold hasIn
  simp only [List.mem_cons, or_and_right, exists_or, exists_eq_left]

theorem not_hasIn_rest (sorted : Sorted BitmapElement.index (before ++ e :: after))
    (here : e.index = n / (W * N)) : ¬ hasIn (before ++ after) n := by
  rintro ⟨a, mem, there, _⟩
  obtain ⟨_, earlier, later⟩ := sorted_middle.mp sorted
  rcases List.mem_append.mp mem with mem | mem
  · have below := earlier a mem
    omega
  · have above := later a mem
    omega

theorem hasIn_middle (sorted : Sorted BitmapElement.index (before ++ e :: after)) :
    hasIn (before ++ e :: after) n ↔
      if e.index = n / (W * N) then e.has (n % (W * N)) else hasIn (before ++ after) n := by
  rw [hasIn_append, hasIn_cons, or_left_comm, ← hasIn_append]
  by_cases here : e.index = n / (W * N)
  · rw [if_pos here, or_iff_left (not_hasIn_rest sorted here)]
    exact and_iff_right here
  · rw [if_neg here]
    exact or_iff_right fun both => here both.1

end Middle

theorem number_eq (size : Nat) {n m : Nat} : n = m ↔ n / size = m / size ∧ n % size = m % size := by
  constructor
  · rintro rfl
    exact ⟨rfl, rfl⟩
  · rintro ⟨quotient, rest⟩
    rw [← Nat.div_add_mod n size, ← Nat.div_add_mod m size, quotient, rest]

theorem not_hasIn {l : List (BitmapElement W N)} {n : Nat}
    (apart : ∀ e ∈ l, e.index ≠ n / (W * N)) : ¬ hasIn l n :=
  fun ⟨e, mem, here, _⟩ => apart e mem here

theorem of_empty {b : Bitmap W N} {n : Nat} (none : b.elements = []) : ¬ b.has n :=
  not_hasIn fun e mem => by
    rw [none] at mem
    cases mem

section Searched
variable {t p : Nat} {l : List (BitmapElement W N)}

theorem bound_le (bound : Bound t l p) : p ≤ l.length := by
  cases bound <;> simp

theorem replaced {before after : List (BitmapElement W N)} {e e' : BitmapElement W N} {p : Nat}
    (wf : WellFormed ⟨before ++ e :: after, p⟩) (index : e'.index = e.index)
    (bit : ∃ i, e'.has i) : WellFormed ⟨before ++ e' :: after, before.length⟩ := by
  obtain ⟨rest, earlier, later⟩ := sorted_middle.mp wf.sorted
  refine ⟨sorted_middle.mpr ⟨rest, ?_, ?_⟩, fun c mem => ?_, by simp⟩
  · exact fun a mem => index ▸ earlier a mem
  · exact fun a mem => index ▸ later a mem
  · rcases List.mem_append.mp mem with mem | mem
    · exact wf.inhabited c (List.mem_append_left _ mem)
    · rcases List.mem_cons.mp mem with rfl | mem
      · exact bit
      · exact wf.inhabited c (List.mem_append_right _ (List.mem_cons_of_mem e mem))

theorem removed {before after : List (BitmapElement W N)} {e : BitmapElement W N} {p : Nat}
    (wf : WellFormed ⟨before ++ e :: after, p⟩) :
    WellFormed ⟨before ++ after, before.length⟩ := by
  refine ⟨(sorted_middle.mp wf.sorted).1, fun c mem => wf.inhabited c ?_, by simp⟩
  rcases List.mem_append.mp mem with mem | mem
  · exact List.mem_append_left _ mem
  · exact List.mem_append_right _ (List.mem_cons_of_mem e mem)

theorem found_or_none (sorted : Sorted BitmapElement.index l) (bound : Bound t l p) :
    (∃ before e after, l = before ++ e :: after ∧ p = before.length ∧ e.index = t) ∨
      ∀ e ∈ l, e.index ≠ t := by
  cases bound with
  | found here => exact .inl ⟨_, _, _, rfl, rfl, here⟩
  | above low high =>
    refine .inr (List.forall_mem_append.mpr ⟨fun e mem => ?_, fun e mem => ?_⟩)
    · exact Nat.ne_of_lt (low e mem)
    · exact Nat.ne_of_gt (high e mem)
  | below here high =>
    have earlier := (sorted_middle.mp sorted).2.1
    refine .inr (List.forall_mem_append.mpr ⟨fun c mem => ?_,
      List.forall_mem_cons.mpr ⟨Nat.ne_of_lt here, fun c mem => Nat.ne_of_gt (high c mem)⟩⟩)
    exact Nat.ne_of_lt (Nat.lt_trans (earlier c mem) here)

end Searched
section Operations
variable [NeZero (W * N)] {b : Bitmap W N}

theorem test_place {e : BitmapElement W N} {idx : Nat} :
    e.test (place idx) = true ↔ e.has (idx % (W * N)) :=
  ⟨fun on => ⟨_, on⟩, fun ⟨_, on⟩ => on⟩

theorem test_spec (wf : b.WellFormed) (idx : Nat) : ∃ p ≤ b.elements.length,
    (b.test idx).2 = { b with currElementIter := p } ∧ ((b.test idx).1 = true ↔ b.has idx) := by
  unfold test
  split
  · rename_i none
    exact ⟨_, wf.inside, rfl, iff_of_false nofun (of_empty (List.isEmpty_iff.mp none))⟩
  · rename_i some
    obtain ⟨p, searched, bound⟩ := findLowerBound_spec wf.sorted
      (fun none => some (List.isEmpty_iff.mpr none)) wf.inside (idx / (W * N))
    simp only [searched]
    refine ⟨p, bound_le bound, ?_⟩
    rcases found_or_none wf.sorted bound with ⟨before, e, after, elements, rfl, here⟩ | apart
    · simp only [elements, getElem?_middle, here, ne_eq, not_true_eq_false, ↓reduceIte, true_and]
      have sorted := wf.sorted
      unfold has
      rw [elements] at sorted ⊢
      rw [hasIn_middle sorted, if_pos here]
      exact test_place
    · cases there : b.elements[p]? with
      | none => exact ⟨rfl, iff_of_false nofun (not_hasIn apart)⟩
      | some e =>
        simp only [if_pos (apart e (List.mem_of_getElem? there)), true_and]
        exact iff_of_false nofun (not_hasIn apart)

theorem reset_spec (wf : b.WellFormed) (idx : Nat) :
    (b.reset idx).WellFormed ∧ ∀ n, (b.reset idx).has n ↔ n ≠ idx ∧ b.has n := by
  unfold reset
  split
  · rename_i none
    refine ⟨wf, fun n => iff_of_false ?_ fun both => ?_⟩
    · exact of_empty (List.isEmpty_iff.mp none)
    · exact of_empty (List.isEmpty_iff.mp none) both.2
  · rename_i some
    obtain ⟨p, searched, bound⟩ := findLowerBound_spec wf.sorted
      (fun none => some (List.isEmpty_iff.mpr none)) wf.inside (idx / (W * N))
    simp only [searched]
    rcases found_or_none wf.sorted bound with ⟨before, e, after, elements, rfl, here⟩ | apart
    · obtain ⟨_, curr⟩ := b
      obtain rfl := elements
      simp only [getElem?_middle, here, ne_eq, not_true_eq_false, ↓reduceIte, eraseIdx_middle,
        set_middle]
      have bits : ∀ n, n / (W * N) = idx / (W * N) →
          ((e.reset (place idx)).has (n % (W * N)) ↔ n ≠ idx ∧ e.has (n % (W * N))) := by
        intro n same
        rw [BitmapElement.has_reset]
        refine and_congr_left fun _ => not_congr ?_
        exact ((number_eq (W * N)).trans (and_iff_right same)).symm
      have others : ∀ n, e.index ≠ n / (W * N) → n ≠ idx := by
        rintro n other rfl
        exact other here
      split
      · rename_i gone
        refine ⟨removed wf, fun n => ?_⟩
        unfold has
        rw [hasIn_middle wf.sorted]
        split
        · rename_i same
          refine iff_of_false (not_hasIn_rest wf.sorted same) fun both => ?_
          exact BitmapElement.empty_iff.mp gone _ ((bits n (same.symm.trans here)).mpr both)
        · rename_i other
          exact (and_iff_right (others n other)).symm
      · rename_i left
        have bit : ∃ i, (e.reset (place idx)).has i :=
          not_forall_not.mp fun none => left (BitmapElement.empty_iff.mpr none)
        have wf' : WellFormed ⟨before ++ e.reset (place idx) :: after, before.length⟩ :=
          replaced wf rfl bit
        refine ⟨wf', fun n => ?_⟩
        unfold has
        rw [hasIn_middle wf'.sorted, hasIn_middle wf.sorted]
        show (if e.index = _ then _ else _) ↔ _
        split
        · rename_i same
          exact bits n (same.symm.trans here)
        · rename_i other
          exact (and_iff_right (others n other)).symm
    · have none : ∀ n, b.has n ↔ n ≠ idx ∧ b.has n := by
        refine fun n => (and_iff_right_of_imp fun on => ?_).symm
        rintro rfl
        exact not_hasIn apart on
      have wf' : WellFormed { b with currElementIter := p } :=
        ⟨wf.sorted, wf.inhabited, bound_le bound⟩
      cases there : b.elements[p]? with
      | none => exact ⟨wf', none⟩
      | some e =>
        simp only [if_pos (apart e (List.mem_of_getElem? there))]
        exact ⟨wf', none⟩

theorem insertElement_spec {before after : List (BitmapElement W N)} {p idx : Nat}
    (wf : WellFormed ⟨before ++ after, p⟩) (low : ∀ e ∈ before, e.index < idx / (W * N))
    (high : ∀ e ∈ after, idx / (W * N) < e.index) :
    let b' := insertElement ⟨before ++ after, p⟩ before.length idx
    b'.WellFormed ∧ ∀ n, b'.has n ↔ n = idx ∨ hasIn (before ++ after) n := by
  intro b'
  let e : BitmapElement W N := (BitmapElement.new (idx / (W * N))).set (place idx)
  have made : b' = ⟨before ++ e :: after, before.length⟩ :=
    congrArg (Bitmap.mk · before.length) insertIdx_middle
  have bits : ∀ i, e.has i ↔ i = idx % (W * N) := by
    intro i
    rw [BitmapElement.has_set]
    exact or_iff_left BitmapElement.not_has_new
  have sorted : Sorted BitmapElement.index (before ++ e :: after) :=
    sorted_middle.mpr ⟨wf.sorted, low, high⟩
  rw [made]
  refine ⟨⟨sorted, fun c mem => ?_, by simp⟩, fun n => ?_⟩
  · rcases List.mem_append.mp mem with mem | mem
    · exact wf.inhabited c (List.mem_append_left _ mem)
    · rcases List.mem_cons.mp mem with rfl | mem
      · exact ⟨_, (bits _).mpr rfl⟩
      · exact wf.inhabited c (List.mem_append_right _ mem)
  · unfold has
    rw [hasIn_middle sorted, bits, number_eq (W * N) (n := n) (m := idx)]
    show (if idx / (W * N) = _ then _ else _) ↔ _
    split
    · rename_i same
      rw [or_iff_left (not_hasIn_rest (e := e) sorted same), and_iff_right same.symm]
    · rename_i other
      exact (or_iff_right fun both => other both.1.symm).symm

theorem set_spec (wf : b.WellFormed) (idx : Nat) :
    (b.set idx).WellFormed ∧ ∀ n, (b.set idx).has n ↔ n = idx ∨ b.has n := by
  unfold set
  split
  · rename_i none
    obtain ⟨_, curr⟩ := b
    obtain rfl := List.isEmpty_iff.mp none
    exact @insertElement_spec W N _ [] [] curr idx wf nofun nofun
  · rename_i some
    obtain ⟨p, searched, bound⟩ := findLowerBound_spec wf.sorted
      (fun none => some (List.isEmpty_iff.mpr none)) wf.inside (idx / (W * N))
    simp only [searched]
    have wf' : WellFormed { b with currElementIter := p } :=
      ⟨wf.sorted, wf.inhabited, bound_le bound⟩
    unfold has
    generalize b.elements = l at bound wf' ⊢
    cases bound with
    | @found before e after here =>
      simp only [getElem?_middle, here, ne_eq, not_true_eq_false, ↓reduceIte, set_middle]
      have bits := @BitmapElement.has_set W N e (place idx)
      have wf'' : WellFormed ⟨before ++ e.set (place idx) :: after, before.length⟩ :=
        replaced wf' rfl ⟨_, bits.mpr (.inl rfl)⟩
      refine ⟨wf'', fun n => ?_⟩
      rw [hasIn_middle wf''.sorted, hasIn_middle wf'.sorted]
      show (if e.index = _ then _ else _) ↔ _
      split
      · rename_i same
        refine bits.trans (or_congr_left ?_)
        exact ((number_eq (W * N)).trans (and_iff_right (same.symm.trans here))).symm
      · rename_i other
        refine (or_iff_right ?_).symm
        rintro rfl
        exact other here
    | @above before after low high =>
      cases after with
      | nil =>
        simp only [List.append_nil, List.getElem?_length]
        have alone := insertElement_spec wf' low high
        rw [List.append_nil] at alone
        exact alone
      | cons e after =>
        have above := high e List.mem_cons_self
        simp only [getElem?_middle, ne_eq, Nat.ne_of_gt above, Nat.not_lt_of_lt above,
          not_false_eq_true, ↓reduceIte]
        exact insertElement_spec wf' low high
    | @below before e after here high =>
      simp only [getElem?_middle, ne_eq, Nat.ne_of_lt here, here, not_false_eq_true, ↓reduceIte]
      have earlier := (sorted_middle.mp wf'.sorted).2.1
      have split : before ++ e :: after = (before ++ [e]) ++ after := by simp
      have next : before.length + 1 = (before ++ [e]).length := by simp
      rw [split, next]
      rw [split] at wf'
      refine insertElement_spec wf' (fun c mem => ?_) high
      rcases List.mem_append.mp mem with mem | mem
      · exact Nat.lt_trans (earlier c mem) here
      · exact List.mem_singleton.mp mem ▸ here

theorem test_and_set_spec (wf : b.WellFormed) (idx : Nat) :
    (b.test_and_set idx).2.WellFormed ∧ ((b.test_and_set idx).1 = true ↔ ¬ b.has idx) ∧
      ∀ n, (b.test_and_set idx).2.has n ↔ n = idx ∨ b.has n := by
  obtain ⟨p, inside, same, old⟩ := test_spec wf idx
  have wf' : (b.test idx).2.WellFormed := by
    rw [same]
    exact ⟨wf.sorted, wf.inhabited, inside⟩
  have bits : ∀ n, (b.test idx).2.has n ↔ b.has n := by
    intro n
    rw [same]
    exact Iff.rfl
  unfold test_and_set
  cases there : (b.test idx).1 with
  | true =>
    have on := old.mp there
    simp only [there, Bool.not_true, Bool.false_eq_true, ↓reduceIte, false_iff, not_not]
    refine ⟨wf', on, fun n => (bits n).trans (or_iff_right_of_imp ?_).symm⟩
    rintro rfl
    exact on
  | false =>
    simp only [there, Bool.not_false, ↓reduceIte, true_iff]
    obtain ⟨done, all⟩ := set_spec wf' idx
    refine ⟨done, fun on => ?_, fun n => (all n).trans (or_congr_right (bits n))⟩
    rw [old.mpr on] at there
    cases there

end Operations

end Bitmap
end ProgramSlicer.PtrAnalysis
