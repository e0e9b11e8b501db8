import ProgramSlicer.Andersen.CycleDetector

/-!
What the cycle detector does for a client that keeps to its part: it visits
every node that the start nodes lead to, hands each strongly connected component
to the client once, after the components it leads to, and leaves an empty stack.
The invariant speaks about the time at which a node was first visited, which the
code forgets as soon as it lowers the number of the node.
-/
namespace ProgramSlicer.Andersen.CycleDetector
open Relation Components
variable {N σ : Type} [DecidableEq N]

def Edge (raw : N → List N) (rep : N → N) (v w : N) : Prop := ∃ x ∈ raw v, rep x = w

def process (c : CycleDetector N σ) (r : N) (ms : List N) (s : σ) : Option σ := do
  let s ← ms.foldlM (fun s m => c.processNodeOnCycle m r s) s
  c.processCycleRepNode r s

/-- The client's part. `raw` and `rep` are the children and representatives when
    the search begins; a node keeps them until its component is finished. -/
structure Lawful (c : CycleDetector N σ) (carrier : Finset N) (raw : N → List N) (rep : N → N)
    (Good : Set N → σ → Prop) : Prop where
  inside : ∀ v ∈ carrier, ∀ x ∈ raw v, rep x ∈ carrier
  children : ∀ done s, Good done s → ∀ v ∈ carrier, v ∉ done → c.children s v = raw v
  keeps : ∀ done s, Good done s → ∀ x, rep x ∈ carrier → Good done (c.getRep x s).2
  open_rep : ∀ done s, Good done s → ∀ x, rep x ∈ carrier → rep x ∉ done →
    (c.getRep x s).1 = rep x
  done_rep : ∀ done s, Good done s → ∀ x, rep x ∈ carrier → rep x ∈ done →
    (c.getRep x s).1 ∈ done
  finish : ∀ done s, Good done s → ∀ r ms, (∀ v ∈ r :: ms, v ∈ carrier) →
    IsComponent (Edge raw rep) done r ms →
    ∃ s', process c r ms s = some s' ∧ Good (done ∪ {v | v ∈ r :: ms}) s'

def Seen (s : Search N σ) (n : N) : Prop := (s.dfsNum n).isSome = true

def unseen (carrier : Finset N) (s : Search N σ) : Finset N :=
  carrier.filter fun n => s.dfsNum n = none

@[simp] theorem seen_setDfsNum {node n : N} {d : Nat} {s : Search N σ} :
    Seen (setDfsNum node d s) n ↔ n = node ∨ Seen s n := by
  unfold Seen setDfsNum
  by_cases same : n = node <;> simp [same]

theorem dfsNumOf_setDfsNum {node n : N} {d : Nat} {s : Search N σ} :
    dfsNumOf (setDfsNum node d s) n = if n = node then d else dfsNumOf s n := by
  unfold dfsNumOf setDfsNum
  by_cases same : n = node <;> simp [same]

@[simp] theorem setDfsNum_sccStack (node : N) (d : Nat) (s : Search N σ) :
    (setDfsNum node d s).sccStack = s.sccStack := rfl
@[simp] theorem setDfsNum_inComponent (node : N) (d : Nat) (s : Search N σ) :
    (setDfsNum node d s).inComponent = s.inComponent := rfl
@[simp] theorem setDfsNum_timestamp (node : N) (d : Nat) (s : Search N σ) :
    (setDfsNum node d s).timestamp = s.timestamp := rfl
@[simp] theorem setDfsNum_client (node : N) (d : Nat) (s : Search N σ) :
    (setDfsNum node d s).client = s.client := rfl

variable {c : CycleDetector N σ} {carrier : Finset N} {raw : N → List N} {rep : N → N}
  {Good : Set N → σ → Prop}

/-- `path` holds the nodes whose visit is under way, and `τ` when each node was first visited. -/
structure Inv (carrier : Finset N) (raw : N → List N) (rep : N → N) (Good : Set N → σ → Prop)
    (path : List N) (τ : N → Nat) (s : Search N σ) : Prop where
  inside : ∀ n, Seen s n → n ∈ carrier
  known : ∀ n, Seen s n ↔ n ∈ s.inComponent ∨ n ∈ s.sccStack ∨ n ∈ path
  stack_open : ∀ n ∈ s.sccStack, n ∉ s.inComponent ∧ n ∉ path
  path_open : ∀ n ∈ path, n ∉ s.inComponent
  nodup : s.sccStack.Nodup
  early : ∀ n, Seen s n → τ n < s.timestamp
  distinct : ∀ a b, Seen s a → Seen s b → τ a = τ b → a = b
  low_le : ∀ n, Seen s n → dfsNumOf s n ≤ τ n
  low_reach : ∀ n, Seen s n → n ∉ s.inComponent →
    ∃ u, Seen s u ∧ u ∉ s.inComponent ∧ τ u = dfsNumOf s n ∧ ReflTransGen (Edge raw rep) n u
  stack_low : ∀ n ∈ s.sccStack, dfsNumOf s n < τ n
  stack_edges : ∀ n ∈ s.sccStack, ∀ w, Edge raw rep n w →
    w ∈ s.inComponent ∨ (Seen s w ∧ dfsNumOf s n ≤ τ w)
  done_edges : ∀ n ∈ s.inComponent, ∀ w, Edge raw rep n w → w ∈ s.inComponent
  good : Good {n | n ∈ s.inComponent} s.client

/-- What the visit of `v`, or a part of it, leaves as it was, and what it adds to the stack. -/
structure Frame (raw : N → List N) (rep : N → N) (v : N) (τ : N → Nat) (s : Search N σ)
    (τ' : N → Nat) (s' : Search N σ) (new : List N) : Prop where
  stack : s'.sccStack = new ++ s.sccStack
  seen : ∀ n, Seen s n → Seen s' n
  low : ∀ n, Seen s n → n ≠ v → dfsNumOf s' n = dfsNumOf s n
  time : ∀ n, Seen s n → τ' n = τ n
  late : ∀ n, Seen s' n → ¬ Seen s n → s.timestamp ≤ τ' n
  stamp : s.timestamp ≤ s'.timestamp
  done : ∀ n ∈ s.inComponent, n ∈ s'.inComponent
  fresh : ∀ m ∈ new, ¬ Seen s m
  reach : ∀ m ∈ new, ReflTransGen (Edge raw rep) v m
  above : ∀ m ∈ new, dfsNumOf s' v ≤ dfsNumOf s' m

omit [DecidableEq N] in
theorem frame_refl (v : N) (τ : N → Nat) (s : Search N σ) : Frame raw rep v τ s τ s [] where
  stack := rfl
  seen _ h := h
  low _ _ _ := rfl
  time _ _ := rfl
  late _ h h' := absurd h h'
  stamp := Nat.le_refl _
  done _ h := h
  fresh := by simp
  reach := by simp
  above := by simp

/-! ### Marking a node -/

def mark (node : N) (s : Search N σ) : Search N σ :=
  setDfsNum node s.timestamp { s with timestamp := s.timestamp + 1 }

def timeOf (node : N) (τ : N → Nat) (s : Search N σ) (n : N) : Nat :=
  if n = node then s.timestamp else τ n

theorem seen_mark {node n : N} {s : Search N σ} : Seen (mark node s) n ↔ n = node ∨ Seen s n := by
  simp [mark, Seen, setDfsNum]
  by_cases same : n = node <;> simp [same]

theorem dfsNumOf_mark {node n : N} {s : Search N σ} :
    dfsNumOf (mark node s) n = if n = node then s.timestamp else dfsNumOf s n := by
  unfold mark
  rw [dfsNumOf_setDfsNum]
  rfl

theorem mark_inv {path : List N} {τ : N → Nat} {s : Search N σ} {node : N}
    (inv : Inv carrier raw rep Good path τ s) (member : node ∈ carrier)
    (unseen : ¬ Seen s node) :
    Inv carrier raw rep Good (node :: path) (timeOf node τ s) (mark node s) := by
  have old : ∀ n, Seen s n → n ≠ node := fun n seen same => unseen (same ▸ seen)
  have notDone : node ∉ s.inComponent := fun h => unseen ((inv.known _).mpr (.inl h))
  have notStacked : node ∉ s.sccStack := fun h => unseen ((inv.known _).mpr (.inr (.inl h)))
  have onStack : ∀ n ∈ s.sccStack, Seen s n := fun n h => (inv.known n).mpr (.inr (.inl h))
  constructor
  case inside =>
    intro n seen
    rcases seen_mark.mp seen with same | seen
    · exact same ▸ member
    · exact inv.inside n seen
  case known =>
    intro n
    rw [seen_mark, inv.known n]
    simp only [mark, setDfsNum_inComponent, setDfsNum_sccStack, List.mem_cons]
    tauto
  case stack_open =>
    intro n h
    have other := old n (onStack n h)
    have was := inv.stack_open n h
    exact ⟨was.1, by simp [other, was.2]⟩
  case path_open =>
    intro n h
    rcases List.mem_cons.mp h with same | h
    · exact same ▸ notDone
    · exact inv.path_open n h
  case nodup => exact inv.nodup
  case early =>
    intro n seen
    unfold timeOf
    rcases seen_mark.mp seen with same | seen
    · simp [same, mark]
    · rw [if_neg (old n seen)]
      exact Nat.lt_succ_of_lt (inv.early n seen)
  case distinct =>
    intro a b ha hb
    unfold timeOf
    rcases seen_mark.mp ha with sameA | seenA <;> rcases seen_mark.mp hb with sameB | seenB
    · simp [sameA, sameB]
    · rw [if_pos sameA, if_neg (old b seenB)]
      have := inv.early b seenB
      omega
    · rw [if_neg (old a seenA), if_pos sameB]
      have := inv.early a seenA
      omega
    · rw [if_neg (old a seenA), if_neg (old b seenB)]
      exact inv.distinct a b seenA seenB
  case low_le =>
    intro n seen
    rw [dfsNumOf_mark]
    unfold timeOf
    split
    · exact Nat.le_refl _
    · rename_i other
      exact inv.low_le n ((seen_mark.mp seen).resolve_left other)
  case low_reach =>
    intro n seen unfinished
    by_cases same : n = node
    · exact ⟨node, seen_mark.mpr (.inl rfl), same ▸ unfinished,
        by simp [timeOf, dfsNumOf_mark, same], same ▸ .refl⟩
    · have seen' := (seen_mark.mp seen).resolve_left same
      obtain ⟨u, hu, openU, time, path⟩ := inv.low_reach n seen' unfinished
      exact ⟨u, seen_mark.mpr (.inr hu), openU,
        by rw [dfsNumOf_mark, if_neg same, ← time]; exact if_neg (old u hu), path⟩
  case stack_low =>
    intro n h
    have other := old n (onStack n h)
    rw [dfsNumOf_mark, if_neg other]
    unfold timeOf
    rw [if_neg other]
    exact inv.stack_low n h
  case stack_edges =>
    intro n h w edge
    have other := old n (onStack n h)
    rcases inv.stack_edges n h w edge with done | ⟨seen, low⟩
    · exact .inl done
    · refine .inr ⟨seen_mark.mpr (.inr seen), ?_⟩
      rw [dfsNumOf_mark, if_neg other]
      unfold timeOf
      rw [if_neg (old w seen)]
      exact low
  case done_edges => exact inv.done_edges
  case good => exact inv.good

theorem unseen_mark {node : N} {s : Search N σ} (member : node ∈ carrier)
    (fresh : ¬ Seen s node) : (unseen carrier (mark node s)).card < (unseen carrier s).card := by
  apply Finset.card_lt_card
  constructor
  · intro n h
    simp only [unseen, Finset.mem_filter] at h ⊢
    refine ⟨h.1, ?_⟩
    by_contra seen
    have : Seen (mark node s) n := seen_mark.mpr (.inr (Option.isSome_iff_ne_none.mpr seen))
    simp [Seen, h.2] at this
  · intro sub
    have here : node ∈ unseen carrier s := by
      simp only [unseen, Finset.mem_filter]
      exact ⟨member, by simpa [Seen] using fresh⟩
    have there := sub here
    simp [unseen, mark, setDfsNum] at there

omit [DecidableEq N] in
theorem unseen_mono {s s' : Search N σ} (seen : ∀ n, Seen s n → Seen s' n) :
    (unseen carrier s').card ≤ (unseen carrier s).card := by
  apply Finset.card_le_card
  intro n h
  simp only [unseen, Finset.mem_filter] at h ⊢
  refine ⟨h.1, ?_⟩
  by_contra was
  have : Seen s' n := seen n (Option.isSome_iff_ne_none.mpr was)
  simp [Seen, h.2] at this

/-! ### Lowering the number of the node under way -/

theorem lowered_inv {path : List N} {τ : N → Nat} {s : Search N σ} {v u : N} {d : Nat}
    (inv : Inv carrier raw rep Good (v :: path) τ s) (less : d ≤ dfsNumOf s v)
    (hu : Seen s u) (openU : u ∉ s.inComponent) (time : τ u = d)
    (reach : ReflTransGen (Edge raw rep) v u) :
    Inv carrier raw rep Good (v :: path) τ (setDfsNum v d s) := by
  have seenV : Seen s v := (inv.known v).mpr (.inr (.inr (by simp)))
  have seen : ∀ n, Seen (setDfsNum v d s) n ↔ Seen s n := by
    intro n
    rw [seen_setDfsNum]
    exact ⟨fun h => h.elim (fun same => same ▸ seenV) id, .inr⟩
  have other : ∀ n ∈ s.sccStack, n ≠ v := by
    intro n h same
    exact (inv.stack_open n h).2 (by simp [same])
  constructor
  case inside => exact fun n h => inv.inside n ((seen n).mp h)
  case known => exact fun n => (seen n).trans (inv.known n)
  case stack_open => exact inv.stack_open
  case path_open => exact inv.path_open
  case nodup => exact inv.nodup
  case early => exact fun n h => inv.early n ((seen n).mp h)
  case distinct => exact fun a b ha hb => inv.distinct a b ((seen a).mp ha) ((seen b).mp hb)
  case low_le =>
    intro n h
    rw [dfsNumOf_setDfsNum]
    split
    · rename_i same
      exact less.trans (same ▸ inv.low_le v seenV)
    · exact inv.low_le n ((seen n).mp h)
  case low_reach =>
    intro n h unfinished
    rw [dfsNumOf_setDfsNum]
    by_cases same : n = v
    · rw [if_pos same]
      exact ⟨u, (seen u).mpr hu, openU, time, same ▸ reach⟩
    · rw [if_neg same]
      obtain ⟨x, hx, openX, timeX, reachX⟩ := inv.low_reach n ((seen n).mp h) unfinished
      exact ⟨x, (seen x).mpr hx, openX, timeX, reachX⟩
  case stack_low =>
    intro n h
    rw [dfsNumOf_setDfsNum, if_neg (other n h)]
    exact inv.stack_low n h
  case stack_edges =>
    intro n h w edge
    rw [dfsNumOf_setDfsNum, if_neg (other n h), seen]
    exact inv.stack_edges n h w edge
  case done_edges => exact inv.done_edges
  case good => exact inv.good

theorem lower_inv {path : List N} {τ : N → Nat} {s : Search N σ} {v w : N}
    (inv : Inv carrier raw rep Good (v :: path) τ s) (seen : Seen s w)
    (edge : w ∉ s.inComponent → Edge raw rep v w) :
    Inv carrier raw rep Good (v :: path) τ (lower v w s) := by
  unfold lower
  split
  · rename_i h
    obtain ⟨u, hu, openU, time, reach⟩ := inv.low_reach w seen h.1
    exact lowered_inv inv h.2.le hu openU time (.head (edge h.1) reach)
  · exact inv

theorem dfsNumOf_lower {v w n : N} {s : Search N σ} :
    dfsNumOf (lower v w s) n =
      if n = v ∧ w ∉ s.inComponent then min (dfsNumOf s v) (dfsNumOf s w) else dfsNumOf s n := by
  unfold lower
  split
  · rw [dfsNumOf_setDfsNum]
    grind
  · grind

@[simp] theorem lower_sccStack (v w : N) (s : Search N σ) :
    (lower v w s).sccStack = s.sccStack := by unfold lower; split <;> rfl
@[simp] theorem lower_inComponent (v w : N) (s : Search N σ) :
    (lower v w s).inComponent = s.inComponent := by unfold lower; split <;> rfl
@[simp] theorem lower_timestamp (v w : N) (s : Search N σ) :
    (lower v w s).timestamp = s.timestamp := by unfold lower; split <;> rfl

theorem seen_lower {v w n : N} {s : Search N σ} (seenV : Seen s v) :
    Seen (lower v w s) n ↔ Seen s n := by
  unfold lower
  split
  · rw [seen_setDfsNum]
    exact ⟨fun h => h.elim (fun same => same ▸ seenV) id, .inr⟩
  · exact Iff.rfl

/-! ### The successors of a node -/

omit [DecidableEq N] in
theorem client_inv {path : List N} {τ : N → Nat} {s : Search N σ} {client : σ}
    (inv : Inv carrier raw rep Good path τ s) (good : Good {n | n ∈ s.inComponent} client) :
    Inv carrier raw rep Good path τ { s with client } :=
  ⟨inv.inside, inv.known, inv.stack_open, inv.path_open, inv.nodup, inv.early, inv.distinct,
    inv.low_le, inv.low_reach, inv.stack_low, inv.stack_edges, inv.done_edges, good⟩

omit [DecidableEq N] in
theorem client_frame {v : N} {τ τ' : N → Nat} {s s' : Search N σ} {new : List N} {a : σ}
    (frame : Frame raw rep v τ { s with client := a } τ' s' new) :
    Frame raw rep v τ s τ' s' new :=
  ⟨frame.stack, frame.seen, frame.low, frame.time, frame.late, frame.stamp, frame.done,
    frame.fresh, frame.reach, frame.above⟩

/-- The result of a visit of `v`, or of an index that stands for `v`. -/
structure Visited (carrier : Finset N) (raw : N → List N) (rep : N → N) (Good : Set N → σ → Prop)
    (path : List N) (v : N) (τ : N → Nat) (s : Search N σ) (τ' : N → Nat) (s' : Search N σ)
    (new : List N) : Prop where
  inv : Inv carrier raw rep Good path τ' s'
  frame : Frame raw rep v τ s τ' s' new
  seen : Seen s' v
  same : ∀ n, Seen s n → dfsNumOf s' n = dfsNumOf s n
  closed : v ∈ s'.inComponent → new = []

def Visits (c : CycleDetector N σ) (carrier : Finset N) (raw : N → List N) (rep : N → N)
    (Good : Set N → σ → Prop) (fuel : Nat) : Prop :=
  ∀ node path τ s, Inv carrier raw rep Good path τ s → node ∈ carrier → ¬ Seen s node →
    (unseen carrier s).card ≤ fuel → ∃ s' τ' new, visit c fuel node s = some s' ∧
      Visited carrier raw rep Good path node τ s τ' s' new

theorem enter_spec (law : Lawful c carrier raw rep Good) {fuel : Nat}
    (visits : Visits c carrier raw rep Good fuel) {path : List N} {τ : N → Nat}
    {s : Search N σ} {x : N} (inv : Inv carrier raw rep Good path τ s) (member : rep x ∈ carrier)
    (enough : (unseen carrier s).card ≤ fuel) :
    ∃ w s' τ' new, enter c (visit c fuel) x s = some (w, s') ∧
      Visited carrier raw rep Good path w τ s τ' s' new ∧
      (rep x = w ∨ (rep x ∈ s'.inComponent ∧ w ∈ s'.inComponent)) := by
  let client := (c.getRep x s.client).2
  let w := (c.getRep x s.client).1
  have entered : enter c (visit c fuel) x s =
      if (s.dfsNum w).isSome then some (w, { s with client })
      else (visit c fuel w { s with client }).map fun s => (w, s) := rfl
  have inv' : Inv carrier raw rep Good path τ { s with client } :=
    client_inv inv (law.keeps _ _ inv.good x member)
  have stands : rep x = w ∨ (rep x ∈ s.inComponent ∧ w ∈ s.inComponent) := by
    by_cases done : rep x ∈ s.inComponent
    · exact .inr ⟨done, law.done_rep _ _ inv.good x member done⟩
    · exact .inl (law.open_rep _ _ inv.good x member done).symm
  by_cases seen : (s.dfsNum w).isSome = true
  · have result : enter c (visit c fuel) x s = some (w, { s with client }) := by
      rw [entered, if_pos seen]
    refine ⟨w, { s with client }, τ, [], result, ?_, stands⟩
    exact ⟨inv', client_frame (frame_refl w τ { s with client }), seen, fun _ _ => rfl,
      fun _ => rfl⟩
  · have itself : rep x = w := by
      rcases stands with same | ⟨_, done⟩
      · exact same
      · exact absurd ((inv.known w).mpr (.inl done)) seen
    obtain ⟨s', τ', new, run, visited⟩ :=
      visits w path τ { s with client } inv' (itself ▸ member) seen enough
    have result : enter c (visit c fuel) x s = some (w, s') := by
      refine (entered.trans (if_neg seen)).trans ?_
      rw [run]
      rfl
    refine ⟨w, s', τ', new, result, ?_, .inl itself⟩
    exact ⟨visited.inv, client_frame visited.frame, visited.seen, visited.same,
      visited.closed⟩

structure Looping (carrier : Finset N) (raw : N → List N) (rep : N → N) (Good : Set N → σ → Prop)
    (path : List N) (v : N) (τ₁ : N → Nat) (s₁ : Search N σ) (Checked : N → Prop)
    (τ : N → Nat) (s : Search N σ) (new : List N) : Prop where
  inv : Inv carrier raw rep Good (v :: path) τ s
  frame : Frame raw rep v τ₁ s₁ τ s new
  checked : ∀ w, Checked w → w ∈ s.inComponent ∨ (Seen s w ∧ dfsNumOf s v ≤ τ w)

theorem frame_of_child {path : List N} {v w : N} {τ₁ τ τ' : N → Nat} {s₁ s s' : Search N σ}
    {new fresh : List N} (inv : Inv carrier raw rep Good (v :: path) τ s)
    (frame : Frame raw rep v τ₁ s₁ τ s new)
    (visited : Visited carrier raw rep Good (v :: path) w τ s τ' s' fresh) (seenV : Seen s v)
    (edge : w ∉ s'.inComponent → Edge raw rep v w) :
    Frame raw rep v τ₁ s₁ τ' (lower v w s') (fresh ++ new) := by
  have seenV' := visited.frame.seen v seenV
  have unfinished : ∀ m ∈ fresh, w ∉ s'.inComponent := by
    intro m hm done
    rw [visited.closed done] at hm
    simp at hm
  constructor
  case stack => rw [lower_sccStack, visited.frame.stack, frame.stack, List.append_assoc]
  case seen => exact fun n h => (seen_lower seenV').mpr (visited.frame.seen n (frame.seen n h))
  case low =>
    intro n h other
    rw [dfsNumOf_lower, if_neg (fun both => other both.1), visited.same n (frame.seen n h)]
    exact frame.low n h other
  case time =>
    intro n h
    rw [visited.frame.time n (frame.seen n h), frame.time n h]
  case late =>
    intro n h new
    by_cases before : Seen s n
    · rw [visited.frame.time n before]
      exact frame.late n before new
    · exact frame.stamp.trans (visited.frame.late n ((seen_lower seenV').mp h) before)
  case stamp =>
    rw [lower_timestamp]
    exact frame.stamp.trans visited.frame.stamp
  case done =>
    intro n h
    rw [lower_inComponent]
    exact visited.frame.done n (frame.done n h)
  case fresh =>
    intro m hm
    rcases List.mem_append.mp hm with h | h
    · exact fun old => visited.frame.fresh m h (frame.seen m old)
    · exact frame.fresh m h
  case reach =>
    intro m hm
    rcases List.mem_append.mp hm with h | h
    · exact .head (edge (unfinished m h)) (visited.frame.reach m h)
    · exact frame.reach m h
  case above =>
    intro m hm
    by_cases same : m = v
    · rw [same]
    · rw [dfsNumOf_lower (n := m), if_neg (fun both => same both.1), dfsNumOf_lower,
        visited.same v seenV]
      rcases List.mem_append.mp hm with h | h
      · rw [if_pos ⟨rfl, unfinished m h⟩]
        exact (min_le_right _ _).trans (visited.frame.above m h)
      · have onStack : m ∈ s.sccStack := by
          rw [frame.stack]
          exact List.mem_append_left _ h
        have seenM : Seen s m := (inv.known m).mpr (.inr (.inl onStack))
        rw [visited.same m seenM]
        have above := frame.above m h
        split
        · exact (min_le_left _ _).trans above
        · exact above

theorem visitEdge_spec (law : Lawful c carrier raw rep Good) {fuel : Nat}
    (visits : Visits c carrier raw rep Good fuel) {path : List N} {v x : N} {τ₁ τ : N → Nat}
    {s₁ s : Search N σ} {Checked : N → Prop} {new : List N}
    (loop : Looping carrier raw rep Good path v τ₁ s₁ Checked τ s new) (child : x ∈ raw v)
    (enough : (unseen carrier s).card ≤ fuel) :
    ∃ s' τ' new', visitEdge c (visit c fuel) v s x = some s' ∧
      Looping carrier raw rep Good path v τ₁ s₁ (fun w => Checked w ∨ w = rep x) τ' s' new' ∧
      ∀ n, Seen s n → Seen s' n := by
  obtain ⟨inv, frame, checked⟩ := loop
  have seenV : Seen s v := (inv.known v).mpr (.inr (.inr (by simp)))
  have member : rep x ∈ carrier := law.inside v (inv.inside v seenV) x child
  obtain ⟨w, s', τ', fresh, entered, visited, stands⟩ := enter_spec law visits inv member enough
  have edge : w ∉ s'.inComponent → Edge raw rep v w := by
    intro unfinished
    rcases stands with same | ⟨_, done⟩
    · exact ⟨x, child, same⟩
    · exact absurd done unfinished
  have seenV' := visited.frame.seen v seenV
  have result : visitEdge c (visit c fuel) v s x = some (lower v w s') := by
    unfold visitEdge
    rw [entered]
    rfl
  have lowV : dfsNumOf (lower v w s') v ≤ dfsNumOf s v := by
    rw [dfsNumOf_lower, visited.same v seenV]
    grind
  have lowW : w ∉ s'.inComponent → dfsNumOf (lower v w s') v ≤ dfsNumOf s' w := by
    intro unfinished
    rw [dfsNumOf_lower]
    simp [unfinished]
  refine ⟨lower v w s', τ', fresh ++ new, result,
    ⟨?_, frame_of_child inv frame visited seenV edge, ?_⟩, ?_⟩
  · exact lower_inv visited.inv visited.seen edge
  · intro y hy
    rw [lower_inComponent]
    rcases hy with old | same
    · rcases checked y old with done | ⟨seen, low⟩
      · exact .inl (visited.frame.done y done)
      · refine .inr ⟨(seen_lower seenV').mpr (visited.frame.seen y seen), ?_⟩
        rw [visited.frame.time y seen]
        exact lowV.trans low
    · rcases stands with itself | ⟨done, _⟩
      · by_cases done : w ∈ s'.inComponent
        · exact .inl (by rw [same, itself]; exact done)
        · rw [same, itself]
          exact .inr ⟨(seen_lower seenV').mpr visited.seen,
            (lowW done).trans (visited.inv.low_le w visited.seen)⟩
      · exact .inl (by rw [same]; exact done)
  · exact fun n h => (seen_lower seenV').mpr (visited.frame.seen n h)

theorem visitEdges_spec (law : Lawful c carrier raw rep Good) {fuel : Nat}
    (visits : Visits c carrier raw rep Good fuel) {path : List N} {v : N} {τ₁ : N → Nat}
    {s₁ : Search N σ} (xs : List N) (children : ∀ x ∈ xs, x ∈ raw v) :
    ∀ {Checked : N → Prop} {τ : N → Nat} {s : Search N σ} {new : List N},
      Looping carrier raw rep Good path v τ₁ s₁ Checked τ s new →
      (unseen carrier s).card ≤ fuel →
      ∃ s' τ' new', xs.foldlM (visitEdge c (visit c fuel) v) s = some s' ∧
        Looping carrier raw rep Good path v τ₁ s₁ (fun w => Checked w ∨ ∃ x ∈ xs, rep x = w)
          τ' s' new' := by
  induction xs with
  | nil =>
    intro Checked τ s new loop _
    refine ⟨s, τ, new, rfl, loop.inv, loop.frame, ?_⟩
    intro w hw
    exact loop.checked w (by simpa using hw)
  | cons x xs ih =>
    intro Checked τ s new loop enough
    obtain ⟨s', τ', new', first, loop', grows⟩ :=
      visitEdge_spec law visits loop (children x (by simp)) enough
    obtain ⟨s'', τ'', new'', rest, loop''⟩ :=
      ih (fun y hy => children y (by simp [hy])) loop' ((unseen_mono grows).trans enough)
    refine ⟨s'', τ'', new'', by rw [List.foldlM_cons, first]; exact rest, loop''.inv,
      loop''.frame, ?_⟩
    intro w hw
    apply loop''.checked w
    grind

/-! ### Leaving a node -/

theorem frame_of_marked {node : N} {τ τ' : N → Nat} {s s' : Search N σ} {new : List N}
    (fresh : ¬ Seen s node)
    (frame : Frame raw rep node (timeOf node τ s) (mark node s) τ' s' new) :
    Frame raw rep node τ s τ' s' new where
  stack := frame.stack
  seen n h := frame.seen n (seen_mark.mpr (.inr h))
  low n h other := by
    rw [frame.low n (seen_mark.mpr (.inr h)) other, dfsNumOf_mark, if_neg other]
  time n h := by
    rw [frame.time n (seen_mark.mpr (.inr h))]
    exact if_neg fun same : n = node => fresh (same ▸ h)
  late n h unseen := by
    by_cases same : n = node
    · have time := frame.time node (seen_mark.mpr (.inl rfl))
      rw [same, time]
      simp [timeOf]
    · have later := frame.late n h (by simp [seen_mark, same, unseen])
      exact (Nat.le_succ _).trans later
  stamp := (Nat.le_succ _).trans frame.stamp
  done := frame.done
  fresh m hm old := frame.fresh m hm (seen_mark.mpr (.inr old))
  reach := frame.reach
  above := frame.above

omit [DecidableEq N] in
theorem push_inv {path : List N} {τ : N → Nat} {s : Search N σ} {v : N}
    (inv : Inv carrier raw rep Good (v :: path) τ s) (single : v ∉ path)
    (lowered : dfsNumOf s v ≠ τ v)
    (edges : ∀ w, Edge raw rep v w → w ∈ s.inComponent ∨ (Seen s w ∧ dfsNumOf s v ≤ τ w)) :
    Inv carrier raw rep Good path τ { s with sccStack := v :: s.sccStack } := by
  have notStacked : v ∉ s.sccStack := fun h => (inv.stack_open v h).2 (by simp)
  have seenV : Seen s v := (inv.known v).mpr (.inr (.inr (by simp)))
  constructor
  case inside => exact inv.inside
  case known =>
    intro n
    refine (inv.known n).trans ?_
    simp only [List.mem_cons]
    tauto
  case stack_open =>
    intro n h
    rcases List.mem_cons.mp h with same | h
    · exact ⟨same ▸ inv.path_open v (by simp), same ▸ single⟩
    · have was := inv.stack_open n h
      exact ⟨was.1, fun onPath => was.2 (List.mem_cons_of_mem v onPath)⟩
  case path_open => exact fun n h => inv.path_open n (List.mem_cons_of_mem v h)
  case nodup => exact List.nodup_cons.mpr ⟨notStacked, inv.nodup⟩
  case early => exact inv.early
  case distinct => exact inv.distinct
  case low_le => exact inv.low_le
  case low_reach => exact inv.low_reach
  case stack_low =>
    intro n h
    rcases List.mem_cons.mp h with same | h
    · rw [same]
      exact Nat.lt_of_le_of_ne (inv.low_le v seenV) lowered
    · exact inv.stack_low n h
  case stack_edges =>
    intro n h w edge
    rcases List.mem_cons.mp h with same | h
    · rw [same] at edge ⊢
      exact edges w edge
    · exact inv.stack_edges n h w edge
  case done_edges => exact inv.done_edges
  case good => exact inv.good

/-- What is known when the visit of `v` ends without an edge to an older open node. -/
structure AtRoot (carrier : Finset N) (raw : N → List N) (rep : N → N) (Good : Set N → σ → Prop)
    (path : List N) (v : N) (τ : N → Nat) (s : Search N σ) (new old : List N) : Prop where
  inv : Inv carrier raw rep Good (v :: path) τ s
  single : v ∉ path
  stack : s.sccStack = new ++ old
  low : dfsNumOf s v = τ v
  above : ∀ m ∈ new, dfsNumOf s v ≤ dfsNumOf s m
  late : ∀ m ∈ new, τ v ≤ τ m
  early_old : ∀ n ∈ old, τ n < τ v
  early_path : ∀ n ∈ path, τ n < τ v
  reach : ∀ m ∈ new, ReflTransGen (Edge raw rep) v m
  edges : ∀ w, Edge raw rep v w → w ∈ s.inComponent ∨ (Seen s w ∧ dfsNumOf s v ≤ τ w)

namespace AtRoot
variable {path : List N} {v : N} {τ : N → Nat} {s : Search N σ} {new old : List N}

omit [DecidableEq N] in
theorem member (root : AtRoot carrier raw rep Good path v τ s new old) {u : N} (seen : Seen s u)
    (unfinished : u ∉ s.inComponent) (late : τ v ≤ τ u) : u ∈ v :: new := by
  rcases (root.inv.known u).mp seen with done | stacked | onPath
  · exact absurd done unfinished
  · rw [root.stack] at stacked
    rcases List.mem_append.mp stacked with inNew | inOld
    · exact List.mem_cons_of_mem v inNew
    · have := root.early_old u inOld
      omega
  · rcases List.mem_cons.mp onPath with same | below
    · simp [same]
    · have := root.early_path u below
      omega

omit [DecidableEq N] in
theorem stacked (root : AtRoot carrier raw rep Good path v τ s new old) {m : N} (hm : m ∈ new) :
    m ∈ s.sccStack := by
  rw [root.stack]
  exact List.mem_append_left _ hm

omit [DecidableEq N] in
theorem to_root (root : AtRoot carrier raw rep Good path v τ s new old) :
    ∀ m ∈ new, ReflTransGen (Edge raw rep) m v := by
  have each : ∀ d, ∀ m ∈ new, dfsNumOf s m = d → ReflTransGen (Edge raw rep) m v := by
    intro d
    induction d using Nat.strongRecOn with
    | ind d ih =>
      intro m hm number
      have onStack := root.stacked hm
      have seen : Seen s m := (root.inv.known m).mpr (.inr (.inl onStack))
      obtain ⟨u, seenU, openU, time, path⟩ :=
        root.inv.low_reach m seen (root.inv.stack_open m onStack).1
      have late : τ v ≤ τ u := by
        rw [time, ← root.low]
        exact root.above m hm
      rcases List.mem_cons.mp (root.member seenU openU late) with same | inNew
      · exact same ▸ path
      · have less := root.inv.stack_low u (root.stacked inNew)
        exact path.trans (ih (dfsNumOf s u) (by omega) u inNew rfl)
  exact fun m hm => each _ m hm rfl

omit [DecidableEq N] in
theorem isComponent (root : AtRoot carrier raw rep Good path v τ s new old) :
    IsComponent (Edge raw rep) {n | n ∈ s.inComponent} v new where
  settled := root.inv.done_edges
  fresh := by
    intro x hx
    rcases List.mem_cons.mp hx with same | inNew
    · exact same ▸ root.inv.path_open v (by simp)
    · exact (root.inv.stack_open x (root.stacked inNew)).1
  nodup := by
    have whole := root.inv.nodup
    rw [root.stack] at whole
    apply List.nodup_cons.mpr
    exact ⟨fun h => (root.inv.stack_open v (root.stacked h)).2 (by simp),
      (List.nodup_append.mp whole).1⟩
  to_member := root.reach
  to_root := root.to_root
  closed := by
    intro x hx w edge
    have low : τ v ≤ dfsNumOf s x := by
      rw [← root.low]
      rcases List.mem_cons.mp hx with same | inNew
      · rw [same]
      · exact root.above x inNew
    have looked : w ∈ s.inComponent ∨ (Seen s w ∧ dfsNumOf s x ≤ τ w) := by
      rcases List.mem_cons.mp hx with same | inNew
      · rw [same] at edge ⊢
        exact root.edges w edge
      · exact root.inv.stack_edges x (root.stacked inNew) w edge
    rcases looked with done | ⟨seen, time⟩
    · exact .inl done
    · by_cases done : w ∈ s.inComponent
      · exact .inl done
      · exact .inr (root.member seen done (low.trans time))

omit [DecidableEq N] in
theorem popped_inv (root : AtRoot carrier raw rep Good path v τ s new old) {client : σ}
    (good : Good ({n | n ∈ s.inComponent} ∪ {n | n ∈ v :: new}) client) :
    Inv carrier raw rep Good path τ
      { s with client, inComponent := new.reverse ++ v :: s.inComponent, sccStack := old } := by
  have comp := root.isComponent
  have done : ∀ n, n ∈ new.reverse ++ v :: s.inComponent ↔ n ∈ s.inComponent ∨ n ∈ v :: new := by
    intro n
    simp only [List.mem_append, List.mem_reverse, List.mem_cons]
    tauto
  have oldStacked : ∀ n ∈ old, n ∈ s.sccStack := by
    intro n h
    rw [root.stack]
    exact List.mem_append_right _ h
  have late : ∀ n ∈ v :: new, τ v ≤ τ n := by
    intro n h
    rcases List.mem_cons.mp h with same | inNew
    · rw [same]
    · exact root.late n inNew
  constructor
  case inside => exact root.inv.inside
  case known =>
    intro n
    refine (root.inv.known n).trans ?_
    rw [done, root.stack]
    simp only [List.mem_append, List.mem_cons]
    tauto
  case stack_open =>
    intro n h
    have was := root.inv.stack_open n (oldStacked n h)
    have time := root.early_old n h
    refine ⟨?_, fun onPath => was.2 (List.mem_cons_of_mem v onPath)⟩
    rw [done]
    rintro (finished | inside)
    · exact was.1 finished
    · have := late n inside
      omega
  case path_open =>
    intro n h
    have time := root.early_path n h
    rw [done]
    rintro (finished | inside)
    · exact root.inv.path_open n (List.mem_cons_of_mem v h) finished
    · have := late n inside
      omega
  case nodup =>
    have whole := root.inv.nodup
    rw [root.stack] at whole
    exact (List.nodup_append.mp whole).2.1
  case early => exact root.inv.early
  case distinct => exact root.inv.distinct
  case low_le => exact root.inv.low_le
  case low_reach =>
    intro n seen unfinished
    rw [done] at unfinished
    have before : n ∉ s.inComponent := fun h => unfinished (.inl h)
    have time : τ n < τ v := by
      by_contra late
      exact unfinished (.inr (root.member seen before (by omega)))
    obtain ⟨u, seenU, openU, timeU, path⟩ := root.inv.low_reach n seen before
    refine ⟨u, seenU, ?_, timeU, path⟩
    rw [done]
    rintro (finished | inside)
    · exact openU finished
    · have low := root.inv.low_le n seen
      have := late u inside
      omega
  case stack_low => exact fun n h => root.inv.stack_low n (oldStacked n h)
  case stack_edges =>
    intro n h w edge
    rcases root.inv.stack_edges n (oldStacked n h) w edge with finished | seen
    · exact .inl ((done w).mpr (.inl finished))
    · exact .inr seen
  case done_edges =>
    intro n h w edge
    rcases (done n).mp h with finished | inside
    · exact (done w).mpr (.inl (root.inv.done_edges n finished w edge))
    · exact (done w).mpr (comp.closed n inside w edge)
  case good =>
    have same : {n | n ∈ new.reverse ++ v :: s.inComponent} =
        ({n | n ∈ s.inComponent} ∪ {n | n ∈ v :: new} : Set N) := by
      ext n
      exact done n
    rw [same]
    exact good

end AtRoot

omit [DecidableEq N] in
theorem popCycle_eq {v : N} {t : Nat} {old : List N} : ∀ {new : List N} {s : Search N σ},
    (∀ m ∈ new, t ≤ dfsNumOf s m) → (∀ n ∈ old, dfsNumOf s n < t) →
    popCycle c v t (new ++ old) s =
      (new.foldlM (fun s m => c.processNodeOnCycle m v s) s.client).map fun client =>
        { s with client, inComponent := new.reverse ++ s.inComponent, sccStack := old } := by
  intro new
  induction new with
  | nil =>
    intro s _ below
    cases old with
    | nil => rfl
    | cons n old =>
      rw [List.nil_append, popCycle, if_pos (below n (by simp))]
      rfl
  | cons m new ih =>
    intro s above below
    have first : ¬ dfsNumOf s m < t := Nat.not_lt.mpr (above m (by simp))
    rw [List.cons_append, popCycle, if_neg first, List.foldlM_cons]
    cases step : c.processNodeOnCycle m v s.client with
    | none => rfl
    | some client =>
      let s' : Search N σ :=
        { s with client, inComponent := m :: s.inComponent, sccStack := new ++ old }
      have rest := ih (s := s') (fun x hx => above x (by simp [hx])) below
      refine Eq.trans rest ?_
      simp only [Option.bind_eq_bind, Option.bind_some, List.reverse_cons, List.append_assoc,
        List.singleton_append]
      rfl

/-! ### Whole visits and runs -/

theorem visit_succ (fuel : Nat) (node : N) (s : Search N σ) (fresh : ¬ Seen s node) :
    visit c (fuel + 1) node s =
      ((c.children s.client node).foldlM (visitEdge c (visit c fuel) node) (mark node s)) >>=
        fun s₂ => if dfsNumOf s₂ node ≠ s.timestamp then
            some { s₂ with sccStack := node :: s₂.sccStack }
          else
            (popCycle c node s.timestamp s₂.sccStack
                { s₂ with inComponent := node :: s₂.inComponent }) >>= fun s₃ =>
              (c.processCycleRepNode node s₃.client) >>= fun client => some { s₃ with client } := by
  have unvisited : ¬ (s.dfsNum node).isSome = true := fresh
  rw [visit]
  simp only [if_neg unvisited]
  rfl

theorem visits_all (law : Lawful c carrier raw rep Good) (fuel : Nat) :
    Visits c carrier raw rep Good fuel := by
  induction fuel with
  | zero =>
    intro node path τ s inv member fresh enough
    have here : node ∈ unseen carrier s := by
      simp only [unseen, Finset.mem_filter]
      exact ⟨member, by simpa [Seen] using fresh⟩
    have := Finset.card_pos.mpr ⟨node, here⟩
    omega
  | succ fuel ih =>
    intro node path τ s inv member fresh enough
    have marked := mark_inv inv member fresh
    have fewer := unseen_mark member fresh
    have notDone : node ∉ s.inComponent := fun h => fresh ((inv.known node).mpr (.inl h))
    have single : node ∉ path := fun h => fresh ((inv.known node).mpr (.inr (.inr h)))
    have kids : c.children s.client node = raw node :=
      law.children _ _ inv.good node member notDone
    have start : Looping carrier raw rep Good path node (timeOf node τ s) (mark node s)
        (fun _ => False) (timeOf node τ s) (mark node s) [] :=
      ⟨marked, frame_refl _ _ _, fun _ h => h.elim⟩
    obtain ⟨s₂, τ₂, new, loop, inv₂, frame₂, checked⟩ :=
      visitEdges_spec law ih (raw node) (fun _ h => h) start (by omega)
    have edges : ∀ w, Edge raw rep node w →
        w ∈ s₂.inComponent ∨ (Seen s₂ w ∧ dfsNumOf s₂ node ≤ τ₂ w) :=
      fun w edge => checked w (.inr edge)
    have frame := frame_of_marked fresh frame₂
    have time : τ₂ node = s.timestamp := by
      rw [frame₂.time node (seen_mark.mpr (.inl rfl))]
      simp [timeOf]
    have seen : Seen s₂ node := (inv₂.known node).mpr (.inr (.inr (by simp)))
    have same : ∀ n, Seen s n → dfsNumOf s₂ n = dfsNumOf s n :=
      fun n h => frame.low n h fun eq => fresh (eq ▸ h)
    rw [visit_succ fuel node s fresh, kids, loop, Option.bind_eq_bind, Option.bind_some]
    by_cases root : dfsNumOf s₂ node = s.timestamp
    · -- The node is the root of a component, and the component is what it left on the stack.
      have atRoot : AtRoot carrier raw rep Good path node τ₂ s₂ new s.sccStack := {
        inv := inv₂
        single := single
        stack := frame.stack
        low := by omega
        above := frame.above
        late := by
          intro m hm
          have onStack : m ∈ s₂.sccStack := by
            rw [frame.stack]
            exact List.mem_append_left _ hm
          have seenM : Seen s₂ m := (inv₂.known m).mpr (.inr (.inl onStack))
          have := frame.late m seenM (frame.fresh m hm)
          omega
        early_old := by
          intro n h
          have seenN : Seen s n := (inv.known n).mpr (.inr (.inl h))
          have := inv.early n seenN
          have := frame.time n seenN
          omega
        early_path := by
          intro n h
          have seenN : Seen s n := (inv.known n).mpr (.inr (.inr h))
          have := inv.early n seenN
          have := frame.time n seenN
          omega
        reach := frame.reach
        edges := edges }
      have inside : ∀ v ∈ node :: new, v ∈ carrier := by
        intro v hv
        rcases List.mem_cons.mp hv with eq | inNew
        · exact eq ▸ member
        · exact inv₂.inside v ((inv₂.known v).mpr (.inr (.inl (atRoot.stacked inNew))))
      obtain ⟨client, processed, good⟩ :=
        law.finish _ _ inv₂.good node new inside atRoot.isComponent
      obtain ⟨middle, members, finished⟩ := FoldRules.bind_some processed
      have popped : popCycle c node s.timestamp s₂.sccStack
          { s₂ with inComponent := node :: s₂.inComponent } =
          some { s₂ with
            client := middle
            inComponent := new.reverse ++ node :: s₂.inComponent
            sccStack := s.sccStack } := by
        rw [frame.stack, popCycle_eq]
        · simp only [members, Option.map_some]
        · exact fun m hm => root ▸ frame.above m hm
        · intro n h
          have seenN : Seen s n := (inv.known n).mpr (.inr (.inl h))
          have low : dfsNumOf s₂ n = dfsNumOf s n := same n seenN
          exact low ▸ (inv.low_le n seenN).trans_lt (inv.early n seenN)
      refine ⟨_, τ₂, [], ?_, atRoot.popped_inv good, ?_, seen, same, fun _ => rfl⟩
      · rw [if_neg (not_not.mpr root), popped]
        simp only [Option.bind_eq_bind, Option.bind_some, finished]
      · exact ⟨rfl, frame.seen, frame.low, frame.time, frame.late, frame.stamp,
          fun n h => List.mem_append_right _ (List.mem_cons_of_mem node (frame.done n h)),
          by simp, by simp, by simp⟩
    · have lowered : dfsNumOf s₂ node ≠ τ₂ node := by omega
      have notDone₂ := inv₂.path_open node (by simp)
      refine ⟨_, τ₂, node :: new, if_pos root, push_inv inv₂ single lowered edges, ?_, seen, same,
        fun done => absurd done notDone₂⟩
      constructor
      case stack => simp [frame.stack]
      case seen => exact frame.seen
      case low => exact frame.low
      case time => exact frame.time
      case late => exact frame.late
      case stamp => exact frame.stamp
      case done => exact frame.done
      case fresh =>
        intro m hm
        rcases List.mem_cons.mp hm with eq | inNew
        · exact eq ▸ fresh
        · exact frame.fresh m inNew
      case reach =>
        intro m hm
        rcases List.mem_cons.mp hm with eq | inNew
        · exact eq ▸ .refl
        · exact frame.reach m inNew
      case above =>
        intro m hm
        rcases List.mem_cons.mp hm with eq | inNew
        · exact eq ▸ Nat.le_refl _
        · exact frame.above m inNew

def Idle (carrier : Finset N) (raw : N → List N) (rep : N → N) (Good : Set N → σ → Prop)
    (s : Search N σ) : Prop :=
  s.sccStack = [] ∧ ∃ τ, Inv carrier raw rep Good [] τ s

omit [DecidableEq N] in
theorem idle_start {client : σ} (good : Good ∅ client) :
    Idle carrier raw rep Good (Search.start client) := by
  have none : ∀ n, ¬ Seen (Search.start client : Search N σ) n := by simp [Seen, Search.start]
  refine ⟨rfl, fun _ => 0, ?_⟩
  constructor
  case inside => exact fun n h => absurd h (none n)
  case known => simp [Seen, Search.start]
  case stack_open => simp [Search.start]
  case path_open => simp
  case nodup => simp [Search.start]
  case early => exact fun n h => absurd h (none n)
  case distinct => exact fun a _ h => absurd h (none a)
  case low_le => exact fun n h => absurd h (none n)
  case low_reach => exact fun n h => absurd h (none n)
  case stack_low => simp [Search.start]
  case stack_edges => simp [Search.start]
  case done_edges => simp [Search.start]
  case good => simpa [Search.start] using good

theorem enter_idle (law : Lawful c carrier raw rep Good) {fuel : Nat} {s : Search N σ} {x : N}
    (idle : Idle carrier raw rep Good s) (member : rep x ∈ carrier)
    (enough : carrier.card ≤ fuel) :
    ∃ w s', enter c (visit c fuel) x s = some (w, s') ∧ Idle carrier raw rep Good s' ∧
      rep x ∈ s'.inComponent ∧ ∀ n ∈ s.inComponent, n ∈ s'.inComponent := by
  obtain ⟨empty, τ, inv⟩ := idle
  have fits : (unseen carrier s).card ≤ fuel :=
    (Finset.card_le_card (Finset.filter_subset _ _)).trans enough
  obtain ⟨w, s', τ', new, run, visited, stands⟩ :=
    enter_spec law (visits_all law fuel) inv member fits
  -- An open node on the stack has an older open node below it, without end.
  have allDone : ∀ d, ∀ n, Seen s' n → τ' n = d → n ∈ s'.inComponent := by
    intro d
    induction d using Nat.strongRecOn with
    | ind d ih =>
      intro n seen time
      by_contra unfinished
      obtain ⟨u, seenU, openU, timeU, _⟩ := visited.inv.low_reach n seen unfinished
      rcases (visited.inv.known n).mp seen with done | stacked | onPath
      · exact unfinished done
      · have less := visited.inv.stack_low n stacked
        exact openU (ih (τ' u) (by omega) u seenU rfl)
      · simp at onPath
  have done : w ∈ s'.inComponent := allDone _ w visited.seen rfl
  have stack : s'.sccStack = [] := by
    rw [visited.frame.stack, visited.closed done, empty]
    rfl
  refine ⟨w, s', run, ⟨stack, τ', visited.inv⟩, ?_, visited.frame.done⟩
  rcases stands with same | both
  · exact same ▸ done
  · exact both.1

theorem runOnNode_spec (law : Lawful c carrier raw rep Good) {fuel : Nat} {s : Search N σ} {x : N}
    (idle : Idle carrier raw rep Good s) (member : rep x ∈ carrier)
    (enough : carrier.card ≤ fuel) :
    ∃ s', runOnNode c fuel s x = some s' ∧ Idle carrier raw rep Good s' := by
  obtain ⟨w, s', run, idle', _⟩ := enter_idle law idle member enough
  refine ⟨s', ?_, idle'⟩
  unfold runOnNode
  rw [if_neg (not_not.mpr idle.1), run]
  exact if_neg (not_not.mpr idle'.1)

end ProgramSlicer.Andersen.CycleDetector
