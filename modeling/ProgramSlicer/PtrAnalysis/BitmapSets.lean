import Mathlib.Data.Set.Basic
import ProgramSlicer.PtrAnalysis.SparseBitmap

/-!
Sparse bitmaps as sets: what the operations on two bitmaps do, and that any run of operations
answers as sets of numbers would, whatever element was used last.
-/
namespace ProgramSlicer.PtrAnalysis
open SortedBlocks
variable {W N : Nat}

namespace Bitmap

/-! ### Merged elements -/

def bit (x : Option (BitmapElement W N)) (i : Nat) : Prop := ∃ e, x = some e ∧ e.has i

section Merged
variable {m : Merge (BitmapElement W N)} {l l' : List (BitmapElement W N)}
  {x y : Option (BitmapElement W N)} {i n : Nat}

theorem bit_some {e : BitmapElement W N} : bit (some e) i ↔ e.has i :=
  ⟨fun ⟨_, same, on⟩ => Option.some.inj same ▸ on, fun on => ⟨e, rfl, on⟩⟩

theorem not_bit_none : ¬ bit (none : Option (BitmapElement W N)) i := nofun

theorem bit_lt (on : bit x i) : i < W * N := by
  obtain ⟨_, _, low, _⟩ := on
  exact low

theorem hasIn_iff_bit (sorted : Sorted BitmapElement.index l) :
    hasIn l n ↔ bit (find BitmapElement.index l (n / (W * N))) (n % (W * N)) := by
  unfold hasIn bit
  simp only [find_iff sorted, and_assoc]

theorem number_parts {k : Nat} (low : i < W * N) :
    (W * N * k + i) / (W * N) = k ∧ (W * N * k + i) % (W * N) = i := by
  constructor
  · rw [Nat.mul_add_div (by omega), Nat.div_eq_of_lt low, Nat.add_zero]
  · rw [Nat.mul_add_mod, Nat.mod_eq_of_lt low]

theorem hasIn_number {k : Nat} (sorted : Sorted BitmapElement.index l) (low : i < W * N) :
    hasIn l (W * N * k + i) ↔ bit (find BitmapElement.index l k) i := by
  rw [hasIn_iff_bit sorted, (number_parts low).1, (number_parts low).2]

theorem exists_number {P : Nat → Nat → Prop} (low : ∀ k i, P k i → i < W * N) :
    (∃ k i, P k i) ↔ ∃ n, P (n / (W * N)) (n % (W * N)) := by
  constructor
  · rintro ⟨k, i, here⟩
    obtain ⟨quotient, rest⟩ := number_parts (k := k) (low k i here)
    refine ⟨W * N * k + i, ?_⟩
    rw [quotient, rest]
    exact here
  · exact fun ⟨n, here⟩ => ⟨_, _, here⟩

def Inhabited (x : Option (BitmapElement W N)) : Prop := ∀ e, x = some e → ∃ i, e.has i

theorem find_inhabited {b : Bitmap W N} (wf : b.WellFormed) (k : Nat) :
    Inhabited (find BitmapElement.index b.elements k) :=
  fun e here => wf.inhabited e (of_find here).1

theorem merged_spec {b rhs : Bitmap W N} (keeps : m.KeepsKeys BitmapElement.index)
    (inhabits : ∀ x y, Inhabited x → Inhabited y → Inhabited (m.entry x y).1)
    (wf : b.WellFormed) (wf' : rhs.WellFormed) :
    let entry := fun k => m.entry (find BitmapElement.index b.elements k)
      (find BitmapElement.index rhs.elements k)
    let r := m.merge BitmapElement.index b.elements rhs.elements
    WellFormed ⟨r.1, 0⟩ ∧ (r.2 = true ↔ ∃ k, (entry k).2 = true) ∧
      ∀ n, hasIn r.1 n ↔ bit (entry (n / (W * N))).1 (n % (W * N)) := by
  intro entry r
  have merged : m.Merged BitmapElement.index _ _ r := Merge.merge_merged keeps wf.sorted wf'.sorted
  refine ⟨⟨merged.sorted, fun c mem => ?_, Nat.zero_le _⟩, merged.changed, fun n => ?_⟩
  · have found := find_of_mem merged.sorted mem
    rw [merged.find] at found
    exact inhabits _ _ (find_inhabited wf _) (find_inhabited wf' _) c found
  · rw [hasIn_iff_bit merged.sorted, merged.find]

end Merged

/-! ### Two bitmaps -/

section Entries
variable {x y : Option (BitmapElement W N)} {e f : BitmapElement W N} {i : Nat}

theorem union_entry : bit (union.entry x y).1 i ↔ bit x i ∨ bit y i := by
  cases x with
  | none =>
    cases y with
    | none => exact (or_self_iff).symm
    | some f => exact (or_iff_right not_bit_none).symm
  | some e =>
    cases y with
    | none => exact (or_iff_left not_bit_none).symm
    | some f =>
      show bit (some (e.unionWith f).1) i ↔ _
      rw [bit_some, bit_some, bit_some, BitmapElement.has_unionWith]

theorem union_inhabits (bits : Inhabited x) (bits' : Inhabited y) :
    Inhabited (union.entry x y).1 := by
  intro c here
  have on : ∀ i, bit x i ∨ bit y i → c.has i := fun i on =>
    bit_some.mp (here ▸ union_entry.mpr on)
  cases x with
  | some e =>
    obtain ⟨i, has⟩ := bits e rfl
    exact ⟨i, on i (.inl (bit_some.mpr has))⟩
  | none =>
    cases y with
    | none => cases here
    | some f =>
      obtain ⟨i, has⟩ := bits' f rfl
      exact ⟨i, on i (.inr (bit_some.mpr has))⟩

theorem union_flag (bits' : Inhabited y) :
    (union.entry x y).2 = true ↔ ∃ i, bit y i ∧ ¬ bit x i := by
  cases y with
  | none => cases x <;> exact iff_of_false nofun fun ⟨_, on, _⟩ => not_bit_none on
  | some f =>
    simp only [bit_some]
    cases x with
    | none =>
      obtain ⟨i, on⟩ := bits' f rfl
      exact iff_of_true rfl ⟨i, on, not_bit_none⟩
    | some e =>
      simp only [bit_some]
      exact BitmapElement.unionWith_changed

theorem union_keeps : (union (W := W) (N := N)).KeepsKeys BitmapElement.index where
  left _ _ same := Option.some.inj same ▸ rfl
  right _ _ same := Option.some.inj same ▸ rfl
  both _ _ _ _ same := Option.some.inj same ▸ rfl

theorem bit_kept {gone : Bool} (zero : gone = true ↔ ∀ i, ¬ e.has i) :
    bit (if gone then none else some e) i ↔ e.has i := by
  cases gone with
  | true => exact iff_of_false not_bit_none (zero.mp rfl i)
  | false => exact bit_some

theorem inhabited_kept {gone : Bool} (zero : gone = true ↔ ∀ i, ¬ e.has i) :
    Inhabited (if gone then none else some e) := by
  cases gone with
  | true => exact nofun
  | false =>
    rintro _ ⟨⟩
    exact not_forall_not.mp fun none => nomatch zero.mpr none

theorem intersection_entry : bit (intersection.entry x y).1 i ↔ bit x i ∧ bit y i := by
  cases x with
  | none => cases y <;> exact iff_of_false not_bit_none fun both => not_bit_none both.1
  | some e =>
    cases y with
    | none => exact iff_of_false not_bit_none fun both => not_bit_none both.2
    | some f =>
      rw [bit_some, bit_some, ← BitmapElement.has_intersectWith]
      exact bit_kept BitmapElement.allzero_iff

theorem intersection_inhabits : Inhabited (intersection.entry x y).1 := by
  cases x with
  | none => cases y <;> exact nofun
  | some e =>
    cases y with
    | none => exact nofun
    | some f => exact inhabited_kept (e := (e.intersectWith f).1) BitmapElement.allzero_iff

theorem intersection_flag (bits' : Inhabited y) : (intersection.entry x y).2 = true ↔
    (∃ i, bit y i) ∧ ∃ i, bit x i ∧ ¬ bit y i := by
  cases y with
  | none => cases x <;> exact iff_of_false nofun fun ⟨⟨_, on⟩, _⟩ => not_bit_none on
  | some f =>
    cases x with
    | none => exact iff_of_false nofun fun ⟨_, _, on, _⟩ => not_bit_none on
    | some e =>
      simp only [bit_some]
      exact BitmapElement.intersectWith_changed.trans (and_iff_right (bits' f rfl)).symm

theorem kept_index {gone : Bool} {c : BitmapElement W N}
    (same : (if gone then none else some e) = some c) : c.index = e.index := by
  cases gone with
  | true => cases same
  | false => exact Option.some.inj same ▸ rfl

theorem intersection_keeps : (intersection (W := W) (N := N)).KeepsKeys BitmapElement.index where
  left := nofun
  right := nofun
  both e f _ _ same := kept_index (e := (e.intersectWith f).1) same

theorem complement_entry : bit (complement.entry x y).1 i ↔ bit x i ∧ ¬ bit y i := by
  cases x with
  | none => cases y <;> exact iff_of_false not_bit_none fun both => not_bit_none both.1
  | some e =>
    cases y with
    | none => exact (and_iff_left not_bit_none).symm
    | some f =>
      rw [bit_some, bit_some, ← BitmapElement.has_intersectWithComplement]
      exact bit_kept BitmapElement.allzero_iff

theorem complement_inhabits (bits : Inhabited x) : Inhabited (complement.entry x y).1 := by
  cases x with
  | none => cases y <;> exact nofun
  | some e =>
    cases y with
    | none => exact bits
    | some f =>
      exact inhabited_kept (e := (e.intersectWithComplement f).1) BitmapElement.allzero_iff

theorem complement_flag : (complement.entry x y).2 = true ↔ ∃ i, bit x i ∧ bit y i := by
  cases x with
  | none => cases y <;> exact iff_of_false nofun fun ⟨_, on, _⟩ => not_bit_none on
  | some e =>
    cases y with
    | none => exact iff_of_false nofun fun ⟨_, _, on⟩ => not_bit_none on
    | some f =>
      simp only [bit_some]
      exact BitmapElement.intersectWithComplement_changed

theorem complement_keeps : (complement (W := W) (N := N)).KeepsKeys BitmapElement.index where
  left _ _ same := Option.some.inj same ▸ rfl
  right := nofun
  both e f _ _ same := kept_index (e := (e.intersectWithComplement f).1) same

end Entries
section Two
variable {b rhs : Bitmap W N} {n : Nat}

theorem has_iff_bit (wf : b.WellFormed) :
    b.has n ↔ bit (find BitmapElement.index b.elements (n / (W * N))) (n % (W * N)) :=
  hasIn_iff_bit wf.sorted

theorem unite_spec (wf : b.WellFormed) (wf' : rhs.WellFormed) :
    (b.unite rhs).2.WellFormed ∧ ((b.unite rhs).1 = true ↔ ∃ n, rhs.has n ∧ ¬ b.has n) ∧
      ∀ n, (b.unite rhs).2.has n ↔ b.has n ∨ rhs.has n := by
  unfold unite
  split
  · rename_i none
    have nothing : ∀ n, ¬ rhs.has n := fun n => of_empty (List.isEmpty_iff.mp none)
    exact ⟨wf, iff_of_false nofun fun ⟨n, on, _⟩ => nothing n on,
      fun n => (or_iff_left (nothing n)).symm⟩
  · obtain ⟨done, changed, bits⟩ := merged_spec union_keeps
      (fun x y here here' => union_inhabits here here') wf wf'
    refine ⟨done, changed.trans ?_, fun n => ?_⟩
    · simp only [union_flag (find_inhabited wf' _), has_iff_bit wf, has_iff_bit wf']
      exact exists_number fun k i both => bit_lt both.1
    · exact (bits n).trans (union_entry.trans (or_congr (has_iff_bit wf) (has_iff_bit wf')).symm)

theorem intersect_spec (wf : b.WellFormed) (wf' : rhs.WellFormed) :
    (b.intersect rhs).2.WellFormed ∧
      ((b.intersect rhs).1 = true ↔ ∃ n, b.has n ∧ ¬ rhs.has n ∧
        ∃ m, m / (W * N) = n / (W * N) ∧ rhs.has m) ∧
      ∀ n, (b.intersect rhs).2.has n ↔ b.has n ∧ rhs.has n := by
  unfold intersect
  split
  · rename_i none
    have nothing : ∀ n, ¬ b.has n := fun n =>
      of_empty (List.isEmpty_iff.mp (Bool.and_eq_true_iff.mp none).1)
    exact ⟨wf, iff_of_false nofun fun ⟨n, on, _⟩ => nothing n on,
      fun n => iff_of_false (nothing n) fun both => nothing n both.1⟩
  · obtain ⟨done, changed, bits⟩ := merged_spec intersection_keeps
      (fun _ _ _ _ => intersection_inhabits) wf wf'
    refine ⟨done, changed.trans ?_, fun n => ?_⟩
    · simp only [intersection_flag (find_inhabited wf' _)]
      constructor
      · rintro ⟨k, ⟨j, other⟩, i, on, off⟩
        have low := bit_lt on
        refine ⟨W * N * k + i, (hasIn_number wf.sorted low).mpr on,
          fun there => off ((hasIn_number wf'.sorted low).mp there), W * N * k + j, ?_,
          (hasIn_number wf'.sorted (bit_lt other)).mpr other⟩
        rw [(number_parts low).1, (number_parts (bit_lt other)).1]
      · rintro ⟨n, on, off, m, same, other⟩
        refine ⟨n / (W * N), ⟨_, same ▸ (has_iff_bit wf').mp other⟩, _, (has_iff_bit wf).mp on, ?_⟩
        exact fun there => off ((has_iff_bit wf').mpr there)
    · exact (bits n).trans
        (intersection_entry.trans (and_congr (has_iff_bit wf) (has_iff_bit wf')).symm)

theorem intersectWithComplement_spec (wf : b.WellFormed) (wf' : rhs.WellFormed) :
    (b.intersectWithComplement rhs).2.WellFormed ∧
      ((b.intersectWithComplement rhs).1 = true ↔ ∃ n, b.has n ∧ rhs.has n) ∧
      ∀ n, (b.intersectWithComplement rhs).2.has n ↔ b.has n ∧ ¬ rhs.has n := by
  unfold intersectWithComplement
  split
  · rename_i none
    have apart : ∀ n, ¬ (b.has n ∧ rhs.has n) := by
      rintro n ⟨on, on'⟩
      rcases Bool.or_eq_true_iff.mp none with none | none
      · exact of_empty (List.isEmpty_iff.mp none) on
      · exact of_empty (List.isEmpty_iff.mp none) on'
    exact ⟨wf, iff_of_false nofun fun ⟨n, both⟩ => apart n both,
      fun n => (and_iff_left_of_imp fun on there => apart n ⟨on, there⟩).symm⟩
  · obtain ⟨done, changed, bits⟩ := merged_spec complement_keeps
      (fun x y here _ => complement_inhabits here) wf wf'
    refine ⟨done, changed.trans ?_, fun n => ?_⟩
    · simp only [complement_flag, has_iff_bit wf, has_iff_bit wf']
      exact exists_number fun k i both => bit_lt both.1
    · exact (bits n).trans (complement_entry.trans
        (and_congr (has_iff_bit wf) (not_congr (has_iff_bit wf'))).symm)

theorem equalElements_iff {l l' : List (BitmapElement W N)} :
    equalElements l l' = true ↔ l = l' := by
  induction l generalizing l' with
  | nil => cases l' <;> simp [equalElements]
  | cons e l ih =>
    cases l' with
    | nil => simp [equalElements]
    | cons f l' =>
      unfold equalElements BitmapElement.differs
      by_cases same : e = f
      · rw [BitmapElement.equals_iff.mpr same]
        simp [ih, same]
      · rw [Bool.eq_false_of_not_eq_true (mt BitmapElement.equals_iff.mp same)]
        simp [same]

theorem ext_bit {x y : Option (BitmapElement W N)} {k : Nat} (bits : Inhabited x)
    (bits' : Inhabited y) (index : ∀ e, x = some e → e.index = k)
    (index' : ∀ f, y = some f → f.index = k) (same : ∀ i, bit x i ↔ bit y i) : x = y := by
  cases x with
  | none =>
    cases y with
    | none => rfl
    | some f =>
      obtain ⟨i, on⟩ := bits' f rfl
      exact absurd ((same i).mpr (bit_some.mpr on)) not_bit_none
  | some e =>
    cases y with
    | none =>
      obtain ⟨i, on⟩ := bits e rfl
      exact absurd ((same i).mp (bit_some.mpr on)) not_bit_none
    | some f =>
      simp only [bit_some] at same
      exact congrArg some (BitmapElement.ext_has ((index e rfl).trans (index' f rfl).symm) same)

theorem equals_iff (wf : b.WellFormed) (wf' : rhs.WellFormed) :
    b.equals rhs = true ↔ ∀ n, b.has n ↔ rhs.has n := by
  unfold equals
  rw [equalElements_iff]
  constructor
  · intro same n
    unfold has
    rw [same]
  · intro same
    refine sorted_ext wf.sorted wf'.sorted fun k => ext_bit (find_inhabited wf k)
      (find_inhabited wf' k) (fun e here => (of_find here).2) (fun f here => (of_find here).2) ?_
    intro i
    by_cases low : i < W * N
    · rw [← hasIn_number wf.sorted low, ← hasIn_number wf'.sorted low]
      exact same _
    · exact iff_of_false (fun on => low (bit_lt on)) fun on => low (bit_lt on)

theorem has_of_mem {e : BitmapElement W N} {i : Nat} (mem : e ∈ b.elements) (on : e.has i) :
    b.has (W * N * e.index + i) := by
  obtain ⟨quotient, rest⟩ := number_parts (k := e.index) on.1
  exact ⟨e, mem, quotient.symm, rest.symm ▸ on⟩

theorem empty_iff (wf : b.WellFormed) : b.empty = true ↔ ∀ n, ¬ b.has n := by
  unfold empty
  rw [List.isEmpty_iff]
  constructor
  · exact fun none n => of_empty none
  · intro none
    refine List.eq_nil_iff_forall_not_mem.mpr fun e mem => ?_
    obtain ⟨i, on⟩ := wf.inhabited e mem
    exact none _ (has_of_mem mem on)

theorem single_bit_p_iff (wf : b.WellFormed) :
    b.single_bit_p = true ↔ ∃ n, ∀ m, b.has m ↔ m = n := by
  obtain ⟨elements, curr⟩ := b
  match elements with
  | [] => exact iff_of_false nofun fun ⟨n, only⟩ => of_empty rfl ((only n).mpr rfl)
  | [e] =>
    have bits : ∀ n, has ⟨[e], curr⟩ n ↔ e.index = n / (W * N) ∧ e.has (n % (W * N)) :=
      fun n => ⟨fun ⟨_, mem, both⟩ => List.mem_singleton.mp mem ▸ both,
        fun both => ⟨e, List.mem_singleton_self e, both⟩⟩
    show (e.count == 1) = true ↔ _
    rw [beq_iff_eq, BitmapElement.count_one_iff]
    constructor
    · rintro ⟨i, only⟩
      have low : i < W * N := ((only i).mpr rfl).1
      refine ⟨W * N * e.index + i, fun m => ?_⟩
      rw [bits, only, number_eq (W * N) (n := m), (number_parts low).1,
        (number_parts low).2, eq_comm (a := e.index)]
    · rintro ⟨n, only⟩
      refine ⟨n % (W * N), fun k => ⟨fun on => ?_, ?_⟩⟩
      · have number := (only _).mp (has_of_mem List.mem_cons_self on)
        rw [← number, (number_parts on.1).2]
      · rintro rfl
        exact ((bits n).mp ((only n).mpr rfl)).2
  | e :: f :: l =>
    refine iff_of_false nofun fun ⟨n, only⟩ => ?_
    obtain ⟨i, on⟩ := wf.inhabited e List.mem_cons_self
    obtain ⟨j, on'⟩ := wf.inhabited f (List.mem_cons_of_mem e List.mem_cons_self)
    have one := (only _).mp (has_of_mem List.mem_cons_self on)
    have two := (only _).mp (has_of_mem (List.mem_cons_of_mem e List.mem_cons_self) on')
    have index := congrArg (· / (W * N)) (one.trans two.symm)
    simp only [(number_parts on.1).1, (number_parts on'.1).1] at index
    have apart := (sorted_cons.mp wf.sorted).1 f List.mem_cons_self
    omega

end Two

/-! ### Runs -/

inductive Command
  | test (i idx : Nat)
  | reset (i idx : Nat)
  | set (i idx : Nat)
  | test_and_set (i idx : Nat)
  | equals (i j : Nat)
  | copy (i j : Nat)
  | assign (i j : Nat)
  | unite (i j : Nat)
  | intersect (i j : Nat)
  | intersectWithComplement (i j : Nat)
  | clear (i : Nat)
  | empty (i : Nat)
  | single_bit_p (i : Nat)
deriving DecidableEq

section Runs
variable [NeZero (W * N)]

/-- An operation on bitmaps by name, with its result. A bitmap is not made from itself, and it is
not taken from itself unless it is empty: the walk over the other list would go on from an element
that is no longer in it. -/
def exec (s : Nat → Bitmap W N) : Command → Option (Option Bool × (Nat → Bitmap W N))
  | .test i idx =>
    let (r, b) := (s i).test idx
    some (some r, Function.update s i b)
  | .reset i idx => some (none, Function.update s i ((s i).reset idx))
  | .set i idx => some (none, Function.update s i ((s i).set idx))
  | .test_and_set i idx =>
    let (r, b) := (s i).test_and_set idx
    some (some r, Function.update s i b)
  | .equals i j => some (some ((s i).equals (s j)), s)
  | .copy i j => if i = j then none else some (none, Function.update s i (copy (s j)))
  | .assign i j => some (none, Function.update s i (if i = j then clear else assign (s j)))
  | .unite i j =>
    let (r, b) := (s i).unite (s j)
    some (some r, Function.update s i b)
  | .intersect i j =>
    let (r, b) := (s i).intersect (s j)
    some (some r, Function.update s i b)
  | .intersectWithComplement i j =>
    if i = j ∧ (s i).empty = false then none
    else
      let (r, b) := (s i).intersectWithComplement (s j)
      some (some r, Function.update s i b)
  | .clear i => some (none, Function.update s i clear)
  | .empty i => some (some (s i).empty, s)
  | .single_bit_p i => some (some (s i).single_bit_p, s)

def execAll : (Nat → Bitmap W N) → List Command → Option (List (Option Bool) × (Nat → Bitmap W N))
  | s, [] => some ([], s)
  | s, c :: cs => do
    let (a, s) ← exec s c
    let (answers, s) ← execAll s cs
    some (a :: answers, s)

end Runs

def afterwards (sets : Nat → Set Nat) : Command → Nat → Set Nat
  | .reset i idx => Function.update sets i (sets i \ {idx})
  | .set i idx => Function.update sets i (insert idx (sets i))
  | .test_and_set i idx => Function.update sets i (insert idx (sets i))
  | .copy i j => Function.update sets i (sets j)
  | .assign i j => Function.update sets i (if i = j then ∅ else sets j)
  | .unite i j => Function.update sets i (sets i ∪ sets j)
  | .intersect i j => Function.update sets i (sets i ∩ sets j)
  | .intersectWithComplement i j => Function.update sets i (sets i \ sets j)
  | .clear i => Function.update sets i ∅
  | _ => sets

/-- What the result of an operation says of the sets. That of an intersection leaves out the
changes where the other set has nothing in the same element. -/
def result (size : Nat) (sets : Nat → Set Nat) : Command → Option Prop
  | .test i idx => some (idx ∈ sets i)
  | .test_and_set i idx => some (idx ∉ sets i)
  | .equals i j => some (sets i = sets j)
  | .unite i j => some (¬ sets j ⊆ sets i)
  | .intersect i j => some (∃ n ∈ sets i \ sets j, ∃ m ∈ sets j, m / size = n / size)
  | .intersectWithComplement i j => some (sets i ∩ sets j).Nonempty
  | .empty i => some (sets i = ∅)
  | .single_bit_p i => some (∃ n, sets i = {n})
  | _ => none

def Allowed (sets : Nat → Set Nat) : Command → Prop
  | .copy i j => i ≠ j
  | .intersectWithComplement i j => i = j → sets i = ∅
  | _ => True

inductive AnswersAll (size : Nat) : (Nat → Set Nat) → List Command → List (Option Bool) → Prop
  | nil {sets} : AnswersAll size sets [] []
  | cons {sets c cs a answers} (one : Option.Rel (fun r p => r = true ↔ p) a (result size sets c))
      (more : AnswersAll size (afterwards sets c) cs answers) :
      AnswersAll size sets (c :: cs) (a :: answers)

def Represents (s : Nat → Bitmap W N) (sets : Nat → Set Nat) : Prop :=
  ∀ i, (s i).WellFormed ∧ ∀ n, (s i).has n ↔ n ∈ sets i

section Runs
variable {s s' : Nat → Bitmap W N} {sets : Nat → Set Nat}

theorem represents_update {b : Bitmap W N} {t : Set Nat} (rep : Represents s sets)
    (wf : b.WellFormed) (bits : ∀ n, b.has n ↔ n ∈ t) (i : Nat) :
    Represents (Function.update s i b) (Function.update sets i t) := by
  intro k
  by_cases here : k = i
  · subst here
    rw [Function.update_self, Function.update_self]
    exact ⟨wf, bits⟩
  · rw [Function.update_of_ne here, Function.update_of_ne here]
    exact rep k

theorem new_represents : Represents (fun _ => (new : Bitmap W N)) fun _ => ∅ :=
  fun _ => ⟨new_wellFormed, fun _ => iff_of_false (of_empty rfl) (Set.notMem_empty _)⟩

variable [NeZero (W * N)]

theorem exec_none {c : Command} (rep : Represents s sets) (not : ¬ Allowed sets c) :
    exec s c = none := by
  cases c with
  | copy i j => exact if_pos (not_not.mp not)
  | intersectWithComplement i j =>
    obtain ⟨same, some⟩ := Classical.not_imp.mp not
    refine if_pos ⟨same, Bool.eq_false_of_not_eq_true fun none => some ?_⟩
    obtain ⟨wf, bits⟩ := rep i
    exact Set.eq_empty_iff_forall_notMem.mpr fun n mem =>
      (empty_iff wf).mp none n ((bits n).mpr mem)
  | _ => exact absurd trivial not

theorem exec_spec {c : Command} (rep : Represents s sets) (allowed : Allowed sets c) :
    ∃ a s', exec s c = some (a, s') ∧ Represents s' (afterwards sets c) ∧
      Option.Rel (fun r p => r = true ↔ p) a (result (W * N) sets c) := by
  cases c with
  | test i idx =>
    obtain ⟨wf, bits⟩ := rep i
    obtain ⟨p, inside, same, r⟩ := test_spec wf idx
    refine ⟨_, _, rfl, ?_, .some (r.trans (bits idx))⟩
    have again := represents_update rep (b := ((s i).test idx).2) (t := sets i)
      (same ▸ ⟨wf.sorted, wf.inhabited, inside⟩) (same ▸ bits) i
    rwa [Function.update_eq_self] at again
  | reset i idx =>
    obtain ⟨wf, bits⟩ := rep i
    obtain ⟨wf', done⟩ := reset_spec wf idx
    refine ⟨_, _, rfl, represents_update rep wf' (fun n => ?_) i, .none⟩
    rw [done, bits, and_comm]
    rfl
  | set i idx =>
    obtain ⟨wf, bits⟩ := rep i
    obtain ⟨wf', done⟩ := set_spec wf idx
    refine ⟨_, _, rfl, represents_update rep wf' (fun n => ?_) i, .none⟩
    rw [done, bits]
    rfl
  | test_and_set i idx =>
    obtain ⟨wf, bits⟩ := rep i
    obtain ⟨wf', r, done⟩ := test_and_set_spec wf idx
    refine ⟨_, _, rfl, represents_update rep wf' (fun n => ?_) i,
      .some (r.trans (not_congr (bits idx)))⟩
    rw [done, bits]
    rfl
  | equals i j =>
    obtain ⟨wf, bits⟩ := rep i
    obtain ⟨wf', bits'⟩ := rep j
    refine ⟨_, _, rfl, rep, .some ((equals_iff wf wf').trans ?_)⟩
    rw [Set.ext_iff]
    exact forall_congr' fun n => iff_congr (bits n) (bits' n)
  | copy i j =>
    obtain ⟨wf, bits⟩ := rep j
    exact ⟨_, _, if_neg allowed,
      represents_update rep (b := copy (s j)) ⟨wf.sorted, wf.inhabited, Nat.zero_le _⟩ bits i,
      .none⟩
  | assign i j =>
    refine ⟨_, _, rfl, ?_, .none⟩
    show Represents _ (Function.update sets i _)
    split
    · exact represents_update rep (new_represents i).1 (new_represents i).2 i
    · obtain ⟨wf, bits⟩ := rep j
      exact represents_update rep (b := assign (s j))
        ⟨wf.sorted, wf.inhabited, Nat.le_refl _⟩ bits i
  | unite i j =>
    obtain ⟨wf, bits⟩ := rep i
    obtain ⟨wf', bits'⟩ := rep j
    obtain ⟨done, r, all⟩ := unite_spec wf wf'
    refine ⟨_, _, rfl, represents_update rep done (fun n => ?_) i, .some (r.trans ?_)⟩
    · rw [all, bits, bits']
      rfl
    · rw [Set.not_subset]
      exact exists_congr fun n => and_congr (bits' n) (not_congr (bits n))
  | intersect i j =>
    obtain ⟨wf, bits⟩ := rep i
    obtain ⟨wf', bits'⟩ := rep j
    obtain ⟨done, r, all⟩ := intersect_spec wf wf'
    refine ⟨_, _, rfl, represents_update rep done (fun n => ?_) i, .some (r.trans ?_)⟩
    · rw [all, bits, bits']
      rfl
    · simp only [bits, bits', Set.mem_sdiff, and_assoc, and_comm]
  | intersectWithComplement i j =>
    obtain ⟨wf, bits⟩ := rep i
    obtain ⟨wf', bits'⟩ := rep j
    obtain ⟨done, r, all⟩ := intersectWithComplement_spec wf wf'
    refine ⟨_, _, if_neg ?_, represents_update rep done (fun n => ?_) i, .some (r.trans ?_)⟩
    · rintro ⟨same, some⟩
      have none : (s i).empty = true := (empty_iff wf).mpr fun n on =>
        Set.eq_empty_iff_forall_notMem.mp (allowed same) n ((bits n).mp on)
      exact absurd none (Bool.eq_false_iff.mp some)
    · rw [all, bits, bits']
      rfl
    · exact exists_congr fun n => and_congr (bits n) (bits' n)
  | clear i =>
    exact ⟨_, _, rfl, represents_update rep (new_represents i).1 (new_represents i).2 i, .none⟩
  | empty i =>
    obtain ⟨wf, bits⟩ := rep i
    refine ⟨_, _, rfl, rep, .some ((empty_iff wf).trans ?_)⟩
    rw [Set.eq_empty_iff_forall_notMem]
    exact forall_congr' fun n => not_congr (bits n)
  | single_bit_p i =>
    obtain ⟨wf, bits⟩ := rep i
    refine ⟨_, _, rfl, rep, .some ((single_bit_p_iff wf).trans ?_)⟩
    simp only [Set.ext_iff, Set.mem_singleton_iff, bits]

theorem execAll_spec {cs : List Command} {answers : List (Option Bool)} (rep : Represents s sets)
    (done : execAll s cs = some (answers, s')) :
    AnswersAll (W * N) sets cs answers ∧ Represents s' (cs.foldl afterwards sets) := by
  induction cs generalizing s sets answers with
  | nil =>
    obtain ⟨rfl, rfl⟩ := Prod.mk.inj (Option.some.inj done)
    exact ⟨.nil, rep⟩
  | cons c cs ih =>
    obtain ⟨⟨a, middle⟩, one, done⟩ := Option.bind_eq_some_iff.mp done
    obtain ⟨⟨rest, last⟩, more, done⟩ := Option.bind_eq_some_iff.mp done
    obtain ⟨rfl, rfl⟩ := Prod.mk.inj (Option.some.inj done)
    by_cases allowed : Allowed sets c
    · obtain ⟨a', s₁, one', rep', said⟩ := exec_spec rep allowed
      obtain ⟨rfl, rfl⟩ := Prod.mk.inj (Option.some.inj (one'.symm.trans one))
      obtain ⟨others, rep''⟩ := ih rep' more
      exact ⟨.cons said others, rep''⟩
    · rw [exec_none rep allowed] at one
      cases one

/-- Whatever operations are made one after the other, their results are those of sets of numbers,
the bitmaps have the bits of these sets, and the next operation fails only if it is not allowed. -/
theorem bitmaps_refine_sets (cs : List Command) {answers : List (Option Bool)}
    (done : execAll (fun _ => (new : Bitmap W N)) cs = some (answers, s)) :
    let sets := cs.foldl afterwards fun _ => ∅
    AnswersAll (W * N) (fun _ => ∅) cs answers ∧ (∀ i n, (s i).has n ↔ n ∈ sets i) ∧
      ∀ c, exec s c = none ↔ ¬ Allowed sets c := by
  intro sets
  obtain ⟨all, rep⟩ := execAll_spec new_represents done
  refine ⟨all, fun i => (rep i).2, fun c => ⟨fun fails allowed => ?_, exec_none rep⟩⟩
  obtain ⟨a, s', one, _⟩ := exec_spec rep allowed
  rw [fails] at one
  cases one

end Runs

def edits : List Command :=
  [.set 0 5, .set 0 700, .set 0 300, .test 0 5, .reset 0 300, .test 0 300, .set 1 131, .set 1 700,
    .unite 1 0, .intersect 1 0, .single_bit_p 1]

def editsAnswers : List (Option Bool) :=
  [none, none, none, some true, none, some false, none, none, some true, some false, some false]

theorem edits_refine : ∃ s, execAll (fun _ => (new : Bitmap 64 2)) edits = some (editsAnswers, s) ∧
    let sets := edits.foldl afterwards fun _ => ∅
    AnswersAll (64 * 2) (fun _ => ∅) edits editsAnswers ∧ (∀ i n, (s i).has n ↔ n ∈ sets i) ∧
      ∀ c, exec s c = none ↔ ¬ Allowed sets c :=
  ⟨_, rfl, bitmaps_refine_sets edits rfl⟩

end Bitmap
end ProgramSlicer.PtrAnalysis
