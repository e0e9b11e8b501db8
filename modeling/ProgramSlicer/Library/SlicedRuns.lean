import ProgramSlicer.Library.NextKept

/-!
Two machines that walk through one graph and put out what they observe. The
second one may skip what happens at vertices that are not kept, and take any
decision that is not kept its own way as long as it comes closer to an exit.
Where the machines agree at the kept vertices, the second ends whenever the
first does, and has observed the same.
-/
namespace SlicedRuns
open Relation ControlDependence
variable {B S O R : Type}

inductive After (B S R : Type) where
  | goOn (b : B) (σ : S)
  | done (r : R)

abbrev Step (B S O R : Type) := B → S → Option (List O × After B S R)

def run (step : Step B S O R) : Nat → B → S → Option (List O × R)
  | 0, _, _ => none
  | n + 1, b, σ =>
    match step b σ with
    | none => none
    | some (out, .done r) => some (out, r)
    | some (out, .goOn c τ) => (run step n c τ).map fun later => (out ++ later.1, later.2)

theorem run_goOn {step : Step B S O R} {n : Nat} {b c : B} {σ τ : S} {out : List O}
    (one : step b σ = some (out, .goOn c τ)) :
    run step (n + 1) b σ = (run step n c τ).map fun later => (out ++ later.1, later.2) := by
  rw [run, one]

theorem run_done {step : Step B S O R} {n : Nat} {b : B} {σ : S} {out : List O} {r : R}
    (one : step b σ = some (out, .done r)) : run step (n + 1) b σ = some (out, r) := by
  rw [run, one]

theorem run_cases {step : Step B S O R} {n : Nat} {b : B} {σ : S} {out : List O} {r : R}
    (ran : run step (n + 1) b σ = some (out, r)) :
    step b σ = some (out, .done r) ∨ ∃ first c τ later, step b σ = some (first, .goOn c τ) ∧
      run step n c τ = some (later, r) ∧ out = first ++ later := by
  cases one : step b σ with
  | none => simp [run, one] at ran
  | some x =>
    obtain ⟨first, after⟩ := x
    cases after with
    | done r' =>
      rw [run_done one, Option.some.injEq, Prod.mk.injEq] at ran
      rw [← ran.1, ← ran.2]
      exact .inl rfl
    | goOn c τ =>
      rw [run_goOn one] at ran
      obtain ⟨⟨later, r'⟩, rest, same⟩ := Option.map_eq_some_iff.mp ran
      rw [Prod.mk.injEq] at same
      rw [← same.2]
      exact .inr ⟨first, c, τ, later, rfl, rest, same.1.symm⟩

theorem run_keeps {step : Step B S O R} {P : List O → B → S → Prop} {Q : List O → R → Prop}
    (goesOn : ∀ before b σ out c τ, P before b σ → step b σ = some (out, .goOn c τ) →
      P (before ++ out) c τ)
    (ends : ∀ before b σ out r, P before b σ → step b σ = some (out, .done r) →
      Q (before ++ out) r)
    {n : Nat} {b : B} {σ : S} {before out : List O} {r : R} (ran : run step n b σ = some (out, r))
    (start : P before b σ) : Q (before ++ out) r := by
  induction n generalizing b σ before out with
  | zero => simp [run] at ran
  | succ n ih =>
    rcases run_cases ran with last | ⟨first, c, τ, later, one, rest, same⟩
    · exact ends before b σ out r start last
    · rw [same, ← List.append_assoc]
      exact ih rest (goesOn before b σ first c τ start one)

theorem run_more {step step' : Step B S O R}
    (more : ∀ b σ x, step b σ = some x → step' b σ = some x) {n m : Nat} (le : n ≤ m) {b : B}
    {σ : S} {x : List O × R} (ran : run step n b σ = some x) : run step' m b σ = some x := by
  induction n generalizing m b σ x with
  | zero => simp [run] at ran
  | succ n ih =>
    obtain ⟨m, rfl⟩ : ∃ k, m = k + 1 := ⟨m - 1, by omega⟩
    obtain ⟨out, r⟩ := x
    rcases run_cases ran with last | ⟨first, c, τ, later, one, rest, same⟩
    · exact run_done (more b σ _ last)
    · rw [run_goOn (more b σ _ one), ih (by omega) rest, same]
      rfl

/-- A machine whose steps come through with enough fuel. -/
def Monotone (step : Nat → Step B S O R) : Prop :=
  ∀ d e, d ≤ e → ∀ b σ x, step d b σ = some x → step e b σ = some x

def Runs (step : Nat → Step B S O R) (b : B) (σ : S) (out : List O) (r : R) : Prop :=
  ∃ d n, run (step d) n b σ = some (out, r)

theorem runs_done {step : Nat → Step B S O R} {d : Nat} {b : B} {σ : S} {out : List O} {r : R}
    (one : step d b σ = some (out, .done r)) : Runs step b σ out r :=
  ⟨d, 1, run_done one⟩

theorem runs_goOn {step : Nat → Step B S O R} (mono : Monotone step) {d : Nat} {b c : B} {σ τ : S}
    {out later : List O} {r : R} (one : step d b σ = some (out, .goOn c τ))
    (rest : Runs step c τ later r) : Runs step b σ (out ++ later) r := by
  obtain ⟨e, n, ran⟩ := rest
  refine ⟨max d e, n + 1, ?_⟩
  rw [run_goOn (mono d _ (Nat.le_max_left d e) b σ _ one),
    run_more (mono e _ (Nat.le_max_right d e)) (Nat.le_refl n) ran]
  rfl

/-- What both machines do at a kept vertex. -/
def Matched (Edge : B → B → Prop) (decided : B → Prop) (Rel : B → S → B → S → Prop)
    (Same : R → R → Prop) (b : B) : After B S R → After B S R → Prop
  | .goOn c τ, .goOn c' τ' => Edge b c ∧ Edge b c' ∧ (decided b → c = c') ∧ Rel c τ c' τ'
  | .done r, .done r' => Same r r'
  | _, _ => False

/-- The first machine skips what is not kept without being noticed, the second comes closer
    to an exit meanwhile, and both do the same where something is kept. -/
structure Follows (Edge : B → B → Prop) (keep decided : B → Prop) (rank : B → Nat)
    (left : Step B S O R) (right : Nat → Step B S O R) (Rel : B → S → B → S → Prop)
    (Same : R → R → Prop) : Prop where
  monotone : Monotone right
  skips : ∀ {b b' σ σ' out c τ}, ¬ keep b → Rel b σ b' σ' → left b σ = some (out, .goOn c τ) →
    out = [] ∧ Edge b c ∧ Rel c τ b' σ'
  stops : ∀ {b b' σ σ' out r}, ¬ keep b → Rel b σ b' σ' → left b σ = some (out, .done r) →
    out = [] ∧ Exit Edge b ∧ ∀ d out' r', ¬ keep b' → right d b' σ' = some (out', .done r') →
      Same r r'
  approaches : ∀ {b b' σ σ'}, ¬ keep b' → Rel b σ b' σ' →
    (Exit Edge b' ∧ ∃ d r', right d b' σ' = some ([], .done r')) ∨
      ∃ d c τ, right d b' σ' = some ([], .goOn c τ) ∧ Edge b' c ∧ rank c < rank b' ∧ Rel b σ c τ
  both : ∀ {b σ σ' out after}, keep b → Rel b σ b σ' → left b σ = some (out, after) →
    ∃ d after', right d b σ' = some (out, after') ∧ Matched Edge decided Rel Same b after after'

section Runs
variable {Edge : B → B → Prop} {keep decided : B → Prop} {rank : B → Nat} {left : Step B S O R}
  {right : Nat → Step B S O R} {Rel : B → S → B → S → Prop} {Same : R → R → Prop}
  (follows : Follows Edge keep decided rank left right Rel Same)
  (closed : DecisionsKept Edge keep decided) (exits : ∀ b, ReachesExit Edge b)
include follows closed exits

theorem arrives {b b' m : B} {σ σ' : S} (next : NextKept Edge keep b' m) (rel : Rel b σ b' σ') :
    ∃ τ', Rel b σ m τ' ∧ ∀ out r, Runs right m τ' out r → Runs right b' σ' out r := by
  induction size : rank b' using Nat.strongRecOn generalizing b' σ' with
  | _ k ih =>
    by_cases kept : keep b'
    · obtain rfl := (nextKept_here kept).mp next
      exact ⟨σ', rel, fun _ _ runs => runs⟩
    · rcases follows.approaches kept rel with ⟨stop, _⟩ | ⟨d, c, τ, one, edge, less, rel'⟩
      · cases next with
        | here kept' => exact absurd kept' kept
        | step _ edge _ => exact absurd edge (stop _)
      · have next' := (nextKept_skip closed exits kept edge).mp next
        obtain ⟨τ', related, rest⟩ := ih _ (size ▸ less) next' rel' rfl
        refine ⟨τ', related, fun out r runs => ?_⟩
        exact runs_goOn follows.monotone one (rest out r runs)

omit closed exits in
theorem leaves {b b' : B} {σ σ' : S} (none : ∀ m, ¬ NextKept Edge keep b' m)
    (rel : Rel b σ b' σ') : ∃ e τ' d r', Rel b σ e τ' ∧ ¬ keep e ∧
      right d e τ' = some ([], .done r') ∧ Runs right b' σ' [] r' := by
  induction size : rank b' using Nat.strongRecOn generalizing b' σ' with
  | _ k ih =>
    have skipped : ¬ keep b' := fun kept => none b' (.here kept)
    rcases follows.approaches skipped rel with ⟨_, d, r', last⟩ | ⟨d, c, τ, one, edge, less, rel'⟩
    · exact ⟨b', σ', d, r', rel, skipped, last, runs_done last⟩
    · obtain ⟨e, τ', d', r', related, kept, last, runs⟩ := ih _ (size ▸ less)
        (fun m next => none m (.step skipped edge next)) rel' rfl
      exact ⟨e, τ', d', r', related, kept, last, runs_goOn follows.monotone one runs⟩

/-- If the first machine ends, the second does too, having observed the same. -/
theorem follows_run {n : Nat} {b b' : B} {σ σ' : S} {out : List O} {r : R}
    (ran : run left n b σ = some (out, r)) (rel : Rel b σ b' σ')
    (aligned : ∀ m, NextKept Edge keep b m ↔ NextKept Edge keep b' m) :
    ∃ r', Runs right b' σ' out r' ∧ Same r r' := by
  induction n generalizing b b' σ σ' out with
  | zero => simp [run] at ran
  | succ n ih =>
    by_cases kept : keep b
    · -- the second machine walks to b, where both do the same
      obtain ⟨τ', rel', rest⟩ := arrives follows closed exits ((aligned b).mp (.here kept)) rel
      rcases run_cases ran with last | ⟨first, c, τ, later, one, ran', same⟩
      · obtain ⟨d, after, one', matched⟩ := follows.both kept rel' last
        cases after with
        | goOn => exact matched.elim
        | done r' => exact ⟨r', rest _ _ (runs_done one'), matched⟩
      · obtain ⟨d, after, one', matched⟩ := follows.both kept rel' one
        cases after with
        | done => exact matched.elim
        | goOn c' τ' =>
          obtain ⟨edge, edge', decision, related⟩ := matched
          have ahead : ∀ m, NextKept Edge keep c m ↔ NextKept Edge keep c' m := by
            intro m
            by_cases taken : decided b
            · rw [decision taken]
            · exact ⟨nextKept_either closed exits taken edge edge',
                nextKept_either closed exits taken edge' edge⟩
          obtain ⟨r', runs, equal⟩ := ih ran' related ahead
          rw [same]
          exact ⟨r', rest _ _ (runs_goOn follows.monotone one' runs), equal⟩
    · rcases run_cases ran with last | ⟨first, c, τ, later, one, ran', same⟩
      · obtain ⟨silent, stop, equal⟩ := follows.stops kept rel last
        have none : ∀ m, ¬ NextKept Edge keep b' m := by
          intro m next
          cases (aligned m).mpr next with
          | here here => exact kept here
          | step _ edge _ => exact stop _ edge
        obtain ⟨e, τ', d, r', rel', skipped, last', runs⟩ := leaves follows none rel
        obtain ⟨_, _, equal⟩ := follows.stops kept rel' last
        rw [silent]
        exact ⟨r', runs, equal d [] r' skipped last'⟩
      · obtain ⟨silent, edge, rel'⟩ := follows.skips kept rel one
        rw [same, silent]
        refine ih ran' rel' fun m => ?_
        rw [← aligned, nextKept_skip closed exits kept edge]

end Runs
end SlicedRuns
