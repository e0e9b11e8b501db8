import Mathlib.Data.List.Nodup
import Mathlib.Data.List.Sublists
import Mathlib.Tactic.Common

/-!
A loop over the elements of a container that may get new elements while it runs. As long as
the old elements keep their order, the loop comes to each of them; where the container puts
all of them in a new order, its iterators are invalid and going on from one is an error.
-/
namespace GrowingWalk
variable {N : Type} [DecidableEq N]

def next (n : N) : List N → Option N
  | [] => none
  | m :: rest => if m = n then rest.head? else next n rest

theorem next_split {n : N} {before after : List N} (fresh : n ∉ before) :
    next n (before ++ n :: after) = after.head? := by
  induction before with
  | nil => simp [next]
  | cons m before ih =>
    have other : m ≠ n := fun same => fresh (by simp [same])
    have later : n ∉ before := fun mem => fresh (by simp [mem])
    rw [List.cons_append, next, if_neg other]
    exact ih later

omit [DecidableEq N] in
theorem split_of_sublist {n : N} {before after grown : List N}
    (kept : (before ++ n :: after).Sublist grown) :
    ∃ before' after', grown = before' ++ n :: after' ∧ before.Sublist before' ∧
      after.Sublist after' := by
  obtain ⟨left, right, rfl, inLeft, inRight⟩ := List.append_sublist_iff.mp kept
  obtain ⟨skipped, after', rfl, here, later⟩ := List.cons_sublist_iff.mp inRight
  obtain ⟨one, two, rfl⟩ := List.append_of_mem here
  refine ⟨left ++ one, two ++ after', by simp, inLeft.trans (List.sublist_append_left ..), ?_⟩
  exact later.trans (List.sublist_append_right ..)

section Walk
variable {σ : Type} (nodes : σ → List N) (epoch : σ → Nat) (turn : N → σ → Option σ)

/-- The loop from one element on; `epoch` is how often all iterators have become invalid. -/
def walk : Nat → Option N → σ → Option σ
  | _, none, s => some s
  | 0, some _, _ => none
  | turns + 1, some n, s => do
    let s' ← turn n s
    if epoch s' ≠ epoch s then none else walk turns (next n (nodes s')) s'

variable {nodes epoch turn}

theorem walk_epoch {turns : Nat} {start : Option N} {s s' : σ}
    (run : walk nodes epoch turn turns start s = some s') : epoch s' = epoch s := by
  induction turns generalizing start s with
  | zero =>
    cases start with
    | none => exact Option.some.inj run ▸ rfl
    | some n => cases run
  | succ turns ih =>
    cases start with
    | none => exact Option.some.inj run ▸ rfl
    | some n =>
      obtain ⟨s₁, _, rest⟩ := Option.bind_eq_some_iff.mp run
      by_cases same : epoch s₁ = epoch s
      · rw [if_neg (not_not.mpr same)] at rest
        exact (ih rest).trans same
      · rw [if_pos same] at rest
        cases rest

/-- What one turn at an element of the container keeps and brings about. -/
structure Turns (nodes : σ → List N) (epoch : σ → Nat) (turn : N → σ → Option σ)
    (Inv : σ → Prop) (Did : N → σ → Prop) : Prop where
  nodup : ∀ s, (nodes s).Nodup
  turn : ∀ s n, Inv s → n ∈ nodes s → ∃ s', turn n s = some s' ∧ Inv s' ∧
    (epoch s' = epoch s → (nodes s).Sublist (nodes s')) ∧ Did n s' ∧ ∀ m, Did m s → Did m s'

def Invalidates (epoch : σ → Nat) (turn : N → σ → Option σ) (Inv : σ → Prop) : Prop :=
  ∃ s n s', Inv s ∧ turn n s = some s' ∧ Inv s' ∧ epoch s' ≠ epoch s

variable {Inv : σ → Prop} {Did : N → σ → Prop} {size : Nat}

theorem walk_from (turns : Turns nodes epoch turn Inv Did)
    (bound : ∀ s, Inv s → (nodes s).length ≤ size) :
    ∀ (left : Nat) (s : σ) (before after : List N), Inv s → nodes s = before ++ after →
      size ≤ before.length + left →
      (∃ s', walk nodes epoch turn left after.head? s = some s' ∧ Inv s' ∧
        (∀ n ∈ after, Did n s') ∧ ∀ m, Did m s → Did m s') ∨
      (walk nodes epoch turn left after.head? s = none ∧ Invalidates epoch turn Inv) := by
  intro left
  induction left with
  | zero =>
    intro s before after inv split enough
    have fits := bound s inv
    rw [split, List.length_append] at fits
    obtain rfl : after = [] := List.length_eq_zero_iff.mp (by omega)
    exact .inl ⟨s, rfl, inv, by simp, fun m did => did⟩
  | succ left ih =>
    intro s before after inv split enough
    cases after with
    | nil => exact .inl ⟨s, rfl, inv, by simp, fun m did => did⟩
    | cons n after =>
      obtain ⟨s₁, run, inv₁, order, did, keeps⟩ := turns.turn s n inv (by rw [split]; simp)
      rw [List.head?_cons, walk, run, Option.bind_eq_bind, Option.bind_some]
      by_cases valid : epoch s₁ = epoch s
      · have kept := order valid
        rw [split] at kept
        obtain ⟨before', after', split', old, later⟩ := split_of_sublist kept
        have distinct := turns.nodup s₁
        rw [split'] at distinct
        have fresh : n ∉ before' :=
          fun mem => (List.nodup_append.mp distinct).2.2 n mem n (by simp) rfl
        have longer : before.length ≤ before'.length := old.length_le
        rw [if_neg (not_not.mpr valid), split', next_split fresh]
        rcases ih s₁ (before' ++ [n]) after' inv₁ (by simp [split']) (by simp; omega) with
          ⟨s₂, rest, inv₂, all, keeps₂⟩ | broken
        · refine .inl ⟨s₂, rest, inv₂, ?_, fun m done => keeps₂ m (keeps m done)⟩
          intro m mem
          rcases List.mem_cons.mp mem with rfl | mem
          · exact keeps₂ _ did
          · exact all m (later.subset mem)
        · exact .inr broken
      · rw [if_pos valid]
        exact .inr ⟨rfl, s, n, s₁, inv, run, inv₁, valid⟩

/-- The loop comes to an end, having come to every element that the container had at its
    start, or its iterator becomes invalid. -/
theorem walk_all (turns : Turns nodes epoch turn Inv Did)
    (bound : ∀ s, Inv s → (nodes s).length ≤ size) {s : σ} (inv : Inv s) :
    (∃ s', walk nodes epoch turn size (nodes s).head? s = some s' ∧ Inv s' ∧
      ∀ n ∈ nodes s, Did n s') ∨
    (walk nodes epoch turn size (nodes s).head? s = none ∧ Invalidates epoch turn Inv) := by
  rcases walk_from turns bound size s [] (nodes s) inv rfl (by simp) with
    ⟨s', run, inv', all, _⟩ | broken
  · exact .inl ⟨s', run, inv', all⟩
  · exact .inr broken

end Walk
end GrowingWalk
