import Mathlib.Data.Finset.Card
import Mathlib.Logic.Relation
import Mathlib.Tactic.Common

/-!
Nodes that have been merged into one another: every node points at the node it
was merged into, a representative at itself. Following the pointers ends at
the representative; one more merge moves one class and leaves the others.
-/
namespace MergeForest
open Relation
variable {V : Type}

def follow [DecidableEq V] (target : V → V) : Nat → V → V
  | 0, n => n
  | k + 1, n => if target n = n then n else follow target k (target n)

theorem follow_root [DecidableEq V] {target : V → V} {n : V} (root : target n = n) (k : Nat) :
    follow target k n = n := by
  cases k with
  | zero => rfl
  | succ k => exact if_pos root

def Acyclic (target : V → V) : Prop :=
  ∃ depth : V → Nat, ∀ n, target n ≠ n → depth (target n) < depth n

/-- `r` is the representative that the pointers of `n` lead to. -/
def Leads (target : V → V) (n r : V) : Prop :=
  ReflTransGen (fun a b => target a = b) n r ∧ target r = r

theorem leads_unique {target : V → V} {n a b : V} (ha : Leads target n a)
    (hb : Leads target n b) : a = b := by
  obtain ⟨pathA, rootA⟩ := ha
  obtain ⟨pathB, rootB⟩ := hb
  have stays : ∀ {r x}, target r = r → ReflTransGen (fun a b => target a = b) r x → x = r := by
    intro r x root path
    induction path with
    | refl => rfl
    | tail _ step ih => rw [← step, ih, root]
  induction pathA using ReflTransGen.head_induction_on with
  | refl => exact (stays rootA pathB).symm
  | @head x y step _ ih =>
    rcases ReflTransGen.cases_head pathB with same | ⟨z, first, rest⟩
    · have fixed : y = x := by rw [← step, same, rootB]
      exact ih (by rw [fixed, same])
    · exact ih (step.symm.trans first ▸ rest)

theorem leads_step {target : V → V} {n r : V} (h : Leads target (target n) r) :
    Leads target n r :=
  ⟨.head rfl h.1, h.2⟩

section
variable [DecidableEq V] {target : V → V}

theorem follow_leads (acyclic : Acyclic target) (merged : Finset V)
    (fixed : ∀ n ∉ merged, target n = n) {k : Nat} (enough : merged.card ≤ k) (n : V) :
    Leads target n (follow target k n) := by
  obtain ⟨depth, less⟩ := acyclic
  have bounded : ∀ k n, (merged.filter fun m => depth m ≤ depth n).card ≤ k →
      Leads target n (follow target k n) := by
    intro k
    induction k with
    | zero =>
      intro n none
      refine ⟨.refl, ?_⟩
      by_contra moved
      have here : n ∈ merged.filter fun m => depth m ≤ depth n := by
        rw [Finset.mem_filter]
        exact ⟨by_contra fun out => moved (fixed n out), Nat.le_refl _⟩
      have := Finset.card_pos.mpr ⟨n, here⟩
      omega
    | succ k ih =>
      intro n few
      unfold follow
      split
      · rename_i root
        exact ⟨.refl, root⟩
      · rename_i moved
        apply leads_step
        apply ih
        have lower := less n moved
        have fewer : (merged.filter fun m => depth m ≤ depth (target n)) ⊂
            merged.filter fun m => depth m ≤ depth n := by
          constructor
          · intro m hm
            rw [Finset.mem_filter] at hm ⊢
            exact ⟨hm.1, by omega⟩
          · intro sub
            have here : n ∈ merged.filter fun m => depth m ≤ depth n := by
              rw [Finset.mem_filter]
              exact ⟨by_contra fun out => moved (fixed n out), Nat.le_refl _⟩
            have := (Finset.mem_filter.mp (sub here)).2
            omega
        have := Finset.card_lt_card fewer
        omega
  exact bounded k n ((Finset.card_le_card (Finset.filter_subset _ _)).trans enough)

/-- The pointers after `src` has been merged into `dst`. -/
def merge (target : V → V) (dst src n : V) : V := if n = src then dst else target n

omit [DecidableEq V] in
theorem reaches_step_iff {src n : V} (other : n ≠ src) :
    ReflTransGen (fun a b => target a = b) (target n) src ↔
      ReflTransGen (fun a b => target a = b) n src := by
  constructor
  · exact fun path => .head rfl path
  · intro path
    rcases ReflTransGen.cases_head path with same | ⟨z, first, rest⟩
    · exact absurd same other
    · exact first ▸ rest

theorem merge_acyclic (acyclic : Acyclic target) {dst src : V} (rootD : target dst = dst)
    (rootS : target src = src) (other : dst ≠ src) : Acyclic (merge target dst src) := by
  classical
  obtain ⟨depth, less⟩ := acyclic
  let Under := fun n => ReflTransGen (fun a b => target a = b) n src
  refine ⟨fun n => depth n + if Under n then depth dst + 1 else 0, ?_⟩
  intro n moved
  unfold merge at moved ⊢
  dsimp only
  by_cases same : n = src
  · have apart : ¬ Under dst := fun path => other (leads_unique ⟨.refl, rootD⟩ ⟨path, rootS⟩)
    have here : Under n := same ▸ .refl
    rw [if_pos same, if_neg apart, if_pos here]
    omega
  · rw [if_neg same] at moved ⊢
    have lower := less n moved
    have alike : Under (target n) ↔ Under n := reaches_step_iff same
    by_cases under : Under n
    · rw [if_pos under, if_pos (alike.mpr under)]
      omega
    · rw [if_neg under, if_neg (fun h => under (alike.mp h))]
      omega

theorem merge_leads {dst src n r : V} (leads : Leads target n r) (rootD : target dst = dst)
    (rootS : target src = src) (other : dst ≠ src) :
    Leads (merge target dst src) n (if r = src then dst else r) := by
  obtain ⟨path, root⟩ := leads
  have fixedD : merge target dst src dst = dst := by simp [merge, other, rootD]
  induction path using ReflTransGen.head_induction_on with
  | refl =>
    by_cases same : r = src
    · have moved : merge target dst src r = dst := if_pos same
      rw [if_pos same]
      exact leads_step (moved.symm ▸ ⟨.refl, fixedD⟩)
    · rw [if_neg same]
      exact ⟨.refl, by simp [merge, same, root]⟩
  | @head x y step _ ih =>
    by_cases same : x = src
    · have still : y = x := by rw [← step, same, rootS]
      exact still ▸ ih
    · have kept : merge target dst src x = y := by simp [merge, same, step]
      exact leads_step (kept.symm ▸ ih)

end

section
variable {target target' : V → V}

theorem shortcut_leads (acyclic : Acyclic target)
    (short : ∀ n, target' n = target n ∨ Leads target n (target' n)) {n r : V}
    (leads : Leads target n r) : Leads target' n r := by
  obtain ⟨depth, less⟩ := acyclic
  have fixed : ∀ m, target m = m → target' m = m := by
    intro m root
    rcases short m with same | jump
    · rw [same, root]
    · exact leads_unique jump ⟨.refl, root⟩
  induction h : depth n using Nat.strongRecOn generalizing n with
  | ind d ih =>
    by_cases root : target n = n
    · have same : r = n := leads_unique leads ⟨.refl, root⟩
      rw [same]
      exact ⟨.refl, fixed n root⟩
    · apply leads_step
      rcases short n with same | jump
      · rw [same]
        have below : Leads target (target n) r := by
          rcases ReflTransGen.cases_head leads.1 with stop | ⟨z, first, rest⟩
          · exact absurd (stop ▸ leads.2) root
          · exact ⟨first ▸ rest, leads.2⟩
        exact ih (depth (target n)) (h ▸ less n root) below rfl
      · rw [leads_unique jump leads]
        exact ⟨.refl, fixed r leads.2⟩

theorem shortcut_acyclic (acyclic : Acyclic target)
    (short : ∀ n, target' n = target n ∨ Leads target n (target' n)) : Acyclic target' := by
  obtain ⟨depth, less⟩ := acyclic
  have along : ∀ {n m}, ReflTransGen (fun a b => target a = b) n m → m ≠ n →
      depth m < depth n := by
    intro n m path
    induction path with
    | refl => exact fun other => absurd rfl other
    | @tail x y _ step ih =>
      intro other
      by_cases root : target x = x
      · have still : y = x := by rw [← step, root]
        exact still ▸ ih (still ▸ other)
      · have lower : depth y < depth x := step ▸ less x root
        by_cases same : x = n
        · exact same ▸ lower
        · exact lower.trans (ih same)
  refine ⟨depth, ?_⟩
  intro n moved
  rcases short n with same | jump
  · rw [same] at moved ⊢
    exact less n moved
  · exact along jump.1 moved

end
section
variable [DecidableEq V] {related : V → V → Prop} {value : V → V}

/-- Values that name the classes of a relation, after one more pair has been related. -/
theorem merge_classes (classes : ∀ a b, value a = value b ↔ EqvGen related a b)
    (idem : ∀ a, value (value a) = value a) {dst src : V} (rootD : value dst = dst)
    (rootS : value src = src) (a b : V) :
    ((if value a = src then dst else value a) = if value b = src then dst else value b) ↔
      EqvGen (fun x y => (x = dst ∧ y = src) ∨ related x y) a b := by
  constructor
  · intro same
    have home : ∀ x, EqvGen (fun x y => (x = dst ∧ y = src) ∨ related x y) x
        (if value x = src then dst else value x) := by
      intro x
      have old : EqvGen (fun x y => (x = dst ∧ y = src) ∨ related x y) x (value x) :=
        ((classes x (value x)).mp (idem x).symm).mono fun _ _ => .inr
      split
      · rename_i here
        exact .trans _ _ _ (here ▸ old) (.symm _ _ (.rel _ _ (.inl ⟨rfl, rfl⟩)))
      · exact old
    exact .trans _ _ _ (same ▸ home a) (.symm _ _ (home b))
  · intro path
    induction path with
    | rel x y step =>
      rcases step with ⟨rfl, rfl⟩ | old
      · by_cases same : x = y <;> simp [rootD, rootS, same]
      · rw [(classes x y).mpr (.rel x y old)]
    | refl x => rfl
    | symm x y _ ih => exact ih.symm
    | trans x y z _ _ first second => exact first.trans second

end
end MergeForest
