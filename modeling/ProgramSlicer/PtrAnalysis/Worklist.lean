import ProgramSlicer.PtrAnalysis.Heap

/-!
The solver's list of nodes to be processed: a heap for the current pass and one for the next, as
the field-sensitive analysis is configured. Nodes are pushed for the next pass only, so that none
waits for more than one whole pass.
-/
namespace ProgramSlicer.PtrAnalysis

structure Worklist where
  curr : Heap
  next : Heap

namespace Worklist

def create (nn : Nat) : Option Worklist := do
  let curr ← Heap.create nn
  let next ← Heap.create nn
  some ⟨curr, next⟩

def empty (w : Worklist) : Bool := w.curr.empty

/-- True if nothing remains in the current heap, which then is the next one. -/
def swapIfEmpty (w : Worklist) : Bool × Worklist :=
  if w.curr.empty then (true, ⟨w.next, w.curr⟩) else (false, w)

def push (w : Worklist) (n p : Nat) : Option Worklist :=
  (w.next.push n p).map fun r => { w with next := r.2 }

def pop (w : Worklist) : Option (Nat × Nat × Worklist) :=
  w.curr.pop.map fun r => (r.1, r.2.1, { w with curr := r.2.2 })

/-- The head of the loop of `solve`, which stops at `some none`. -/
def nextNode (w : Worklist) : Option (Option (Nat × Nat × Worklist)) :=
  let (passDone, w) := w.swapIfEmpty
  if passDone && w.empty then some none else w.pop.map some

def Pending (w : Worklist) (v : Nat) : Prop := (w.curr.keyOf v).isSome ∨ (w.next.keyOf v).isSome

structure WellFormed (nn : Nat) (w : Worklist) : Prop where
  curr : w.curr.WellFormed
  next : w.next.WellFormed
  currSize : w.curr.maxv = nn
  nextSize : w.next.maxv = nn

inductive Event
  | swap
  | push (n p : Nat)
  | pop (n p : Nat)

inductive Step : Worklist → Event → Worklist → Prop
  | swap {w} : Step w .swap w.swapIfEmpty.2
  | push {w w' n p} (done : w.push n p = some w') : Step w (.push n p) w'
  | pop {w w' n p} (done : w.pop = some (n, p, w')) : Step w (.pop n p) w'

/-- What the rest of the solver pushes is arbitrary. -/
inductive Run : Worklist → List Event → Worklist → Prop
  | nil {w} : Run w [] w
  | cons {w w' w'' e es} (one : Step w e w') (more : Run w' es w'') : Run w (e :: es) w''

def exec (w : Worklist) : Event → Option Worklist
  | .swap => some w.swapIfEmpty.2
  | .push n p => w.push n p
  | .pop n p => w.pop.bind fun r => if r.1 = n ∧ r.2.1 = p then some r.2.2 else none

def execAll : Worklist → List Event → Option Worklist
  | w, [] => some w
  | w, e :: es => (w.exec e).bind fun w => w.execAll es

def popped : List Event → List (Nat × Nat)
  | [] => []
  | .pop n p :: es => (n, p) :: popped es
  | _ :: es => popped es

theorem mem_popped {es : List Event} {n p : Nat} : (n, p) ∈ popped es ↔ .pop n p ∈ es := by
  induction es with
  | nil => exact iff_of_false List.not_mem_nil List.not_mem_nil
  | cons e es ih => cases e <;> simp [popped, ih]

variable {w w' : Worklist} {e : Event} {es es' : List Event} {nn v b : Nat}

theorem step_of_exec (done : w.exec e = some w') : Step w e w' := by
  cases e with
  | swap =>
    rw [← Option.some.inj done]
    exact .swap
  | push n p => exact .push done
  | pop n p =>
    obtain ⟨⟨n', p', next⟩, popped, done⟩ := Option.bind_eq_some_iff.mp done
    obtain ⟨⟨rfl, rfl⟩, same⟩ := Option.ite_none_right_eq_some.mp done
    rw [← Option.some.inj same]
    exact .pop popped

theorem run_of_execAll (es : List Event) (done : w.execAll es = some w') : Run w es w' := by
  induction es generalizing w with
  | nil =>
    rw [← Option.some.inj done]
    exact .nil
  | cons e es ih =>
    obtain ⟨next, one, more⟩ := Option.bind_eq_some_iff.mp done
    exact .cons (step_of_exec one) (ih more)

theorem empty_iff : w.empty ↔ w.curr.size = 0 := by
  unfold empty Heap.empty Heap.size
  exact beq_iff_eq

theorem swapIfEmpty_empty (none : w.curr.size = 0) : w.swapIfEmpty = (true, ⟨w.next, w.curr⟩) :=
  if_pos (empty_iff.mpr none)

theorem swapIfEmpty_filled (some : w.curr.size ≠ 0) : w.swapIfEmpty = (false, w) :=
  if_neg fun isEmpty => some (empty_iff.mp isEmpty)

theorem size_ne_zero {h : Heap} (wf : h.WellFormed) (there : (h.keyOf v).isSome) :
    h.size ≠ 0 := by
  intro empty
  rw [(Heap.size_zero wf.toTabled).mp empty v] at there
  cases there

theorem create_wellFormed (made : create nn = some w) : w.WellFormed nn := by
  obtain ⟨curr, first, made⟩ := Option.bind_eq_some_iff.mp made
  obtain ⟨next, second, made⟩ := Option.bind_eq_some_iff.mp made
  rw [← Option.some.inj made]
  obtain ⟨wf, size, _⟩ := Heap.create_spec first
  obtain ⟨wf', size', _⟩ := Heap.create_spec second
  exact ⟨wf, wf', size, size'⟩

theorem push_spec {n p : Nat} (wf : w.WellFormed nn) (done : w.push n p = some w') :
    w'.curr = w.curr ∧ w'.next.WellFormed ∧ w'.next.maxv = nn ∧
      w'.next.keyOf = Function.update w.next.keyOf n (some p) := by
  obtain ⟨⟨existed, h⟩, pushed, rfl⟩ := Option.map_eq_some_iff.mp done
  have allowed : n ≤ w.next.maxv := by
    by_contra above
    unfold Heap.push at pushed
    rw [if_neg above] at pushed
    cases pushed
  obtain ⟨h', again, wf', size, keys⟩ := Heap.push_spec wf.next allowed p
  rw [again, Option.some.injEq, Prod.mk.injEq] at pushed
  obtain ⟨_, rfl⟩ := pushed
  exact ⟨rfl, wf', size.trans wf.nextSize, keys⟩

theorem pop_spec {n p : Nat} (wf : w.WellFormed nn) (done : w.pop = some (n, p, w')) :
    w'.next = w.next ∧ w'.curr.WellFormed ∧ w'.curr.maxv = nn ∧
      w.curr.keyOf n = some p ∧ (∀ m q, w.curr.keyOf m = some q → p ≤ q) ∧
      w'.curr.size + 1 = w.curr.size ∧
      w'.curr.keyOf = Function.update w.curr.keyOf n none := by
  obtain ⟨⟨n', p', h⟩, taken, same⟩ := Option.map_eq_some_iff.mp done
  simp only [Prod.mk.injEq] at same
  obtain ⟨rfl, rfl, rfl⟩ := same
  obtain ⟨there, least, wf', size, count, keys⟩ := Heap.pop_spec wf.curr taken
  exact ⟨rfl, wf', size.trans wf.currSize, there, least, count, keys⟩

theorem step_wellFormed (wf : w.WellFormed nn) (step : Step w e w') : w'.WellFormed nn := by
  cases step with
  | swap =>
    by_cases none : w.curr.size = 0
    · rw [swapIfEmpty_empty none]
      exact ⟨wf.next, wf.curr, wf.nextSize, wf.currSize⟩
    · rw [swapIfEmpty_filled none]
      exact wf
  | push done =>
    obtain ⟨same, wf', size, _⟩ := push_spec wf done
    exact ⟨same ▸ wf.curr, wf', same ▸ wf.currSize, size⟩
  | pop done =>
    obtain ⟨same, wf', size, _⟩ := pop_spec wf done
    exact ⟨wf', same ▸ wf.next, size, same ▸ wf.nextSize⟩

theorem run_wellFormed (wf : w.WellFormed nn) (run : Run w es w') : w'.WellFormed nn := by
  induction run with
  | nil => exact wf
  | cons one _ ih => exact ih (step_wellFormed wf one)

/-! ### No node is left waiting -/

/-- The node is taken before more than `b` others. -/
def Within (nn b : Nat) (w : Worklist) (v : Nat) : Prop :=
  ((w.curr.keyOf v).isSome ∧ w.curr.size ≤ b) ∨
    ((w.next.keyOf v).isSome ∧ w.curr.size + nn + 1 ≤ b)

theorem within_of_pending (pending : w.Pending v) : w.Within nn (w.curr.size + nn + 1) v := by
  rcases pending with here | later
  · exact .inl ⟨here, by omega⟩
  · exact .inr ⟨later, le_rfl⟩

theorem within_pos (wf : w.WellFormed nn) (within : w.Within nn b v) : 0 < b := by
  rcases within with ⟨here, bound⟩ | ⟨_, bound⟩
  · have filled := size_ne_zero wf.curr here
    omega
  · omega

theorem step_within (wf : w.WellFormed nn) (step : Step w e w') (within : w.Within nn b v) :
    (∃ p, e = .pop v p) ∨ w'.Within nn (b - (popped [e]).length) v := by
  cases step with
  | swap =>
    right
    by_cases none : w.curr.size = 0
    · rw [swapIfEmpty_empty none]
      rcases within with ⟨here, _⟩ | ⟨later, bound⟩
      · exact absurd none (size_ne_zero wf.curr here)
      · have size := Heap.size_le wf.next.toTabled
        rw [wf.nextSize] at size
        exact .inl ⟨later, by simp only [popped, List.length_nil]; omega⟩
    · rw [swapIfEmpty_filled none]
      exact within
  | @push _ n p done =>
    right
    obtain ⟨same, _, _, keys⟩ := push_spec wf done
    rcases within with ⟨here, bound⟩ | ⟨later, bound⟩
    · exact .inl (same ▸ ⟨here, bound⟩)
    · refine .inr ⟨?_, same ▸ bound⟩
      rw [keys]
      by_cases again : v = n
      · rw [again, Function.update_self]
        rfl
      · rw [Function.update_of_ne again]
        exact later
  | @pop _ n p done =>
    obtain ⟨same, _, _, _, _, count, keys⟩ := pop_spec wf done
    by_cases taken : v = n
    · exact .inl ⟨p, taken ▸ rfl⟩
    · right
      rcases within with ⟨here, bound⟩ | ⟨later, bound⟩
      · refine .inl ⟨?_, ?_⟩
        · rw [keys, Function.update_of_ne taken]
          exact here
        · show w'.curr.size ≤ b - 1
          omega
      · refine .inr ⟨same ▸ later, ?_⟩
        show w'.curr.size + nn + 1 ≤ b - 1
        omega

theorem length_popped_cons (e : Event) (es : List Event) :
    (popped (e :: es)).length = (popped [e]).length + (popped es).length := by
  cases e with
  | pop n p => exact Nat.add_comm ..
  | _ => exact (Nat.zero_add _).symm

theorem run_within (wf : w.WellFormed nn) (run : Run w es w') (within : w.Within nn b v) :
    (∃ p, .pop v p ∈ es) ∨ w'.Within nn (b - (popped es).length) v := by
  induction run generalizing b with
  | nil => exact .inr within
  | @cons w _ _ e es one more ih =>
    rcases step_within wf one within with ⟨p, rfl⟩ | next
    · exact .inl ⟨p, List.mem_cons_self⟩
    · rcases ih (step_wellFormed wf one) next with ⟨p, later⟩ | last
      · exact .inl ⟨p, List.mem_cons_of_mem _ later⟩
      · rw [length_popped_cons, ← Nat.sub_sub]
        exact .inr last

theorem pop_none : w.pop = none ↔ w.curr.size = 0 := by
  unfold pop
  rw [Option.map_eq_none_iff, Heap.pop_none]

theorem not_pending_iff (wf : w.WellFormed nn) :
    (∀ v, ¬ w.Pending v) ↔ w.curr.size = 0 ∧ w.next.size = 0 := by
  rw [Heap.size_zero wf.curr.toTabled, Heap.size_zero wf.next.toTabled, ← forall_and]
  refine forall_congr' fun v => ?_
  unfold Pending
  rw [not_or, Option.not_isSome_iff_eq_none, Option.not_isSome_iff_eq_none]

theorem nextNode_spec (wf : w.WellFormed nn) :
    w.nextNode ≠ none ∧ (w.nextNode = some none ↔ ∀ v, ¬ w.Pending v) := by
  rw [not_pending_iff wf]
  unfold nextNode
  by_cases none : w.curr.size = 0
  · rw [swapIfEmpty_empty none]
    by_cases noneNext : w.next.size = 0
    · have isEmpty : empty ⟨w.next, w.curr⟩ := empty_iff.mpr noneNext
      dsimp only
      rw [isEmpty]
      exact ⟨nofun, iff_of_true rfl ⟨none, noneNext⟩⟩
    · have filled : empty ⟨w.next, w.curr⟩ = false :=
        Bool.eq_false_iff.mpr fun isEmpty => noneNext (empty_iff.mp isEmpty)
      dsimp only
      rw [filled, Bool.and_false, if_neg Bool.false_ne_true]
      refine ⟨?_, iff_of_false ?_ fun ⟨_, both⟩ => noneNext both⟩
      · rw [ne_eq, Option.map_eq_none_iff, pop_none]
        exact noneNext
      · intro found
        obtain ⟨_, _, same⟩ := Option.map_eq_some_iff.mp found
        cases same
  · rw [swapIfEmpty_filled none]
    dsimp only
    rw [Bool.false_and, if_neg Bool.false_ne_true]
    refine ⟨?_, iff_of_false ?_ fun ⟨both, _⟩ => none both⟩
    · rw [ne_eq, Option.map_eq_none_iff, pop_none]
      exact none
    · intro found
      obtain ⟨_, _, same⟩ := Option.map_eq_some_iff.mp found
      cases same

/-- In a run of the solver, whatever else is pushed and however often, a node that waits is taken
after at most the rest of the pass and one whole pass. The loop ends only when none waits. -/
theorem no_node_waits (nn : Nat) {start : Worklist} (made : create nn = some start)
    (reached : Run start es w) :
    (∀ v es' w', w.Pending v → Run w es' w' → w.curr.size + nn + 1 ≤ (popped es').length →
      ∃ p, .pop v p ∈ es') ∧
    w.nextNode ≠ none ∧ (w.nextNode = some none ↔ ∀ v, ¬ w.Pending v) := by
  have wf := run_wellFormed (create_wellFormed made) reached
  refine ⟨fun v es' w' pending run many => ?_, nextNode_spec wf⟩
  have soon : w.Within nn (w.curr.size + nn + 1) v := within_of_pending pending
  rcases run_within wf run soon with taken | within
  · exact taken
  · have left := within_pos (run_wellFormed wf run) within
    omega

def twoPasses : List Event := [.swap, .pop 1 5, .push 0 2, .swap, .pop 0 2]

theorem twoPasses_waits : ∃ start w w', create 1 = some start ∧ Run start [.push 1 5] w ∧
    Run w twoPasses w' ∧ (∃ p, .pop 1 p ∈ twoPasses) ∧ w.nextNode ≠ none ∧
      (w.nextNode = some none ↔ ∀ v, ¬ w.Pending v) := by
  refine ⟨_, _, _, rfl, run_of_execAll _ rfl, run_of_execAll _ rfl, ?_⟩
  have spec := no_node_waits 1 rfl (run_of_execAll [.push 1 5] rfl)
  exact ⟨spec.1 1 twoPasses _ (.inr rfl) (run_of_execAll _ rfl) (by decide), spec.2⟩

/-! ### The order of a pass -/

structure Drained (keys : Nat → Option Nat) (taken : List (Nat × Nat)) : Prop where
  sorted : taken.Pairwise fun a b => a.2 ≤ b.2
  apart : (taken.map Prod.fst).Nodup
  there : ∀ n p, (n, p) ∈ taken → keys n = some p
  least : ∀ n p, keys n = some p → n ∉ taken.map Prod.fst → ∀ a ∈ taken, a.2 ≤ p

theorem drained_nil {keys : Nat → Option Nat} : Drained keys [] :=
  ⟨.nil, .nil, fun _ _ => nofun, fun _ _ _ _ _ => nofun⟩

theorem drained_cons {keys : Nat → Option Nat} {n p : Nat} {taken : List (Nat × Nat)}
    (there : keys n = some p) (least : ∀ m q, keys m = some q → p ≤ q)
    (rest : Drained (Function.update keys n none) taken) : Drained keys ((n, p) :: taken) := by
  have others : ∀ m q, (m, q) ∈ taken → m ≠ n ∧ keys m = some q := by
    intro m q mem
    have found := rest.there m q mem
    by_cases same : m = n
    · rw [same, Function.update_self] at found
      cases found
    · rw [Function.update_of_ne same] at found
      exact ⟨same, found⟩
  refine ⟨.cons (fun a mem => ?_) rest.sorted, List.nodup_cons.mpr ⟨fun mem => ?_, rest.apart⟩,
    ?_, ?_⟩
  · exact least a.1 a.2 (others a.1 a.2 mem).2
  · obtain ⟨a, mem, same⟩ := List.mem_map.mp mem
    exact (others a.1 a.2 mem).1 same
  · intro m q mem
    rcases List.mem_cons.mp mem with same | mem
    · obtain ⟨rfl, rfl⟩ := Prod.mk.inj same
      exact there
    · exact (others m q mem).2
  · intro m q found notTaken a mem
    obtain ⟨notN, notRest⟩ := not_or.mp (mt List.mem_cons.mpr notTaken)
    rcases List.mem_cons.mp mem with rfl | mem
    · exact least m q found
    · exact rest.least m q ((Function.update_of_ne notN _ _).trans found) notRest a mem

theorem run_drained (wf : w.WellFormed nn) (run : Run w es w')
    (inPass : (popped es).length ≤ w.curr.size) : Drained w.curr.keyOf (popped es) := by
  induction run with
  | nil => exact drained_nil
  | @cons w _ _ e es one more ih =>
    have wf' := step_wellFormed wf one
    cases one with
    | swap =>
      by_cases none : w.curr.size = 0
      · have nothing : popped (.swap :: es) = [] := List.length_eq_zero_iff.mp (by omega)
        rw [nothing]
        exact drained_nil
      · rw [swapIfEmpty_filled none] at ih wf'
        exact ih wf' inPass
    | push done =>
      obtain ⟨same, _⟩ := push_spec wf done
      rw [same] at ih
      exact ih wf' inPass
    | pop done =>
      obtain ⟨_, _, _, there, least, count, keys⟩ := pop_spec wf done
      have inPass : (popped es).length + 1 ≤ w.curr.size := inPass
      have rest := ih wf' (by omega)
      rw [keys] at rest
      exact drained_cons there least rest

theorem drained_all {h : Heap} {taken : List (Nat × Nat)} (wf : h.WellFormed)
    (drained : Drained h.keyOf taken) (all : taken.length = h.size) {n p : Nat}
    (found : h.keyOf n = some p) : (n, p) ∈ taken := by
  have inside : (taken.map Prod.fst).toFinset ⊆
      (Finset.range (h.maxv + 1)).filter fun v => (h.keyOf v).isSome := by
    intro m mem
    obtain ⟨⟨m', q⟩, entry, rfl⟩ := List.mem_map.mp (List.mem_toFinset.mp mem)
    have there := drained.there m' q entry
    exact Finset.mem_filter.mpr ⟨Finset.mem_range.mpr (Nat.lt_succ_of_le
      (Heap.allowed_of_keyOf wf.toTabled there)), Option.isSome_of_eq_some there⟩
  have count : (taken.map Prod.fst).toFinset.card = h.size := by
    rw [List.toFinset_card_of_nodup drained.apart, List.length_map, all]
  have same := Finset.eq_of_subset_of_card_le inside (by rw [count, Heap.size_eq wf.toTabled])
  have mem : n ∈ (taken.map Prod.fst).toFinset := by
    rw [same]
    exact Finset.mem_filter.mpr ⟨Finset.mem_range.mpr (Nat.lt_succ_of_le
      (Heap.allowed_of_keyOf wf.toTabled found)), Option.isSome_of_eq_some found⟩
  obtain ⟨⟨n', q⟩, entry, rfl⟩ := List.mem_map.mp (List.mem_toFinset.mp mem)
  have key : p = q := Option.some.inj (found.symm.trans (drained.there n' q entry))
  rw [key]
  exact entry

/-- Within a pass the entries that it began with are taken, each once, by rising priority; what
is pushed in the meantime makes no difference. -/
theorem pass_in_order (nn : Nat) {start : Worklist} (made : create nn = some start)
    (reached : Run start es w) (pass : Run w es' w')
    (inPass : (popped es').length ≤ w.curr.size) :
    Drained w.curr.keyOf (popped es') ∧
      ((popped es').length = w.curr.size →
        ∀ n p, w.curr.keyOf n = some p ↔ .pop n p ∈ es') := by
  have wf := run_wellFormed (create_wellFormed made) reached
  have drained := run_drained wf pass inPass
  refine ⟨drained, fun all n p => ?_⟩
  rw [← mem_popped]
  exact ⟨drained_all wf.curr drained all, drained.there n p⟩

def pushedAgain : List Event := [.pop 2 1, .push 2 0, .pop 0 4, .push 1 0]

theorem pushedAgain_inOrder : ∃ start w w', create 2 = some start ∧
    Run start [.push 0 4, .push 2 1, .swap] w ∧ Run w pushedAgain w' ∧
      Drained w.curr.keyOf [(2, 1), (0, 4)] ∧
      ((popped pushedAgain).length = w.curr.size →
        ∀ n p, w.curr.keyOf n = some p ↔ .pop n p ∈ pushedAgain) := by
  refine ⟨_, _, _, rfl, run_of_execAll _ rfl, run_of_execAll _ rfl, ?_⟩
  exact pass_in_order 2 rfl (run_of_execAll [.push 0 4, .push 2 1, .swap] rfl)
    (run_of_execAll pushedAgain rfl) (by decide)

end Worklist
end ProgramSlicer.PtrAnalysis
