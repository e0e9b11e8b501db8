import Mathlib.Data.Set.Insert
import ProgramSlicer.Library.Components

/-!
Value numbering of a graph, component by component, each after those it leads to.
Components with an indirect node get a label of their own. Any other one gets the label
0, the one label that it leads to, or a label that stands for a set.
-/
namespace ValueNumbering
open Components
variable {V : Type} {Edge : V → V → Prop} {Indirect : V → Prop}

def Pinned (Edge : V → V → Prop) (Indirect : V → Prop) (v : V) : Prop :=
  ∃ m, Joined Edge m v ∧ Indirect m

/-- The labels of the nodes in `done`. Those in `sets` stand for sets, `next` is the next
    new one, and whether the only label led to is taken over is `copies`. -/
structure Numbering (Edge : V → V → Prop) (Indirect : V → Prop) (copies : Prop) (done : Set V)
    (label : V → Nat) (next : Nat) (sets : Set Nat) : Prop where
  positive : 0 < next
  below : ∀ v ∈ done, label v < next
  pinned_ne : ∀ v ∈ done, Pinned Edge Indirect v → label v ≠ 0
  pinned_apart : ∀ u ∈ done, ∀ v ∈ done, Pinned Edge Indirect u → Pinned Edge Indirect v →
    label u = label v → Joined Edge u v
  along : ∀ v ∈ done, ¬ Pinned Edge Indirect v → ∀ w, Edge v w → label w ≠ 0 → label v ≠ 0
  copied : ∀ v ∈ done, ¬ Pinned Edge Indirect v → ∀ u ∈ done, Pinned Edge Indirect u →
    label v = label u → copies ∧ ∀ w, Edge v w → label w = 0 ∨ label w = label u
  sets_apart : ∀ l ∈ sets, 0 < l ∧ l < next ∧
    ∀ u ∈ done, Pinned Edge Indirect u → label u ≠ l

/-- The label that a component may get, and the next new label and the set labels after that.
    `preds` are the labels that it leads to. -/
inductive Choice (pinned copies : Prop) (preds : Set Nat) (next : Nat) (sets : Set Nat) :
    Nat → Nat → Set Nat → Prop where
  | unique (here : pinned) : Choice pinned copies preds next sets next (next + 1) sets
  | zero (free : ¬ pinned) (none : ∀ l ∈ preds, l = 0) :
      Choice pinned copies preds next sets 0 next sets
  | copy {l : Nat} (free : ¬ pinned) (allowed : copies) (other : l ≠ 0) (here : l ∈ preds)
      (same : ∀ k ∈ preds, k = 0 ∨ k = l) : Choice pinned copies preds next sets l next sets
  | known {l : Nat} (free : ¬ pinned) (here : l ∈ sets) :
      Choice pinned copies preds next sets l next sets
  | fresh (free : ¬ pinned) :
      Choice pinned copies preds next sets next (next + 1) (insert next sets)

variable {copies : Prop} {done : Set V} {label label' : V → Nat} {next next' : Nat}
  {sets sets' : Set Nat} {r : V} {ms : List V}

theorem numbering_start : Numbering Edge Indirect copies ∅ label 1 ∅ where
  positive := Nat.one_pos
  below _ h := absurd h (Set.notMem_empty _)
  pinned_ne _ h := absurd h (Set.notMem_empty _)
  pinned_apart _ h := absurd h (Set.notMem_empty _)
  along _ h := absurd h (Set.notMem_empty _)
  copied _ h := absurd h (Set.notMem_empty _)
  sets_apart _ h := absurd h (Set.notMem_empty _)

namespace Numbering

theorem congr (numbering : Numbering Edge Indirect copies done label next sets)
    (settled : ∀ v ∈ done, ∀ w, Edge v w → w ∈ done)
    (same : ∀ v ∈ done, label' v = label v) :
    Numbering Edge Indirect copies done label' next sets where
  positive := numbering.positive
  below v hv := same v hv ▸ numbering.below v hv
  pinned_ne v hv := same v hv ▸ numbering.pinned_ne v hv
  pinned_apart u hu v hv := same u hu ▸ same v hv ▸ numbering.pinned_apart u hu v hv
  along v hv free w edge := by
    rw [same v hv, same w (settled v hv w edge)]
    exact numbering.along v hv free w edge
  copied v hv free u hu pinned := by
    rw [same v hv, same u hu]
    intro equal
    obtain ⟨allowed, each⟩ := numbering.copied v hv free u hu pinned equal
    refine ⟨allowed, fun w edge => ?_⟩
    rw [same w (settled v hv w edge)]
    exact each w edge
  sets_apart l hl := by
    obtain ⟨positive, below, apart⟩ := numbering.sets_apart l hl
    exact ⟨positive, below, fun u hu pinned => same u hu ▸ apart u hu pinned⟩

section Finish
variable (numbering : Numbering Edge Indirect copies done label next sets)
  (comp : IsComponent Edge done r ms) {l : Nat}
  (here : ∀ v ∈ r :: ms, label v = l)
include numbering comp here

theorem finish_unique (indirect : ∃ m ∈ r :: ms, Indirect m) (new : l = next) :
    Numbering Edge Indirect copies (done ∪ {v | v ∈ r :: ms}) label (next + 1) sets := by
  have pinned : ∀ v ∈ r :: ms, Pinned Edge Indirect v := by
    intro v hv
    obtain ⟨m, hm, indirect⟩ := indirect
    exact ⟨m, (comp.joined_iff hv).mpr hm, indirect⟩
  have less : ∀ v ∈ done, ∀ u ∈ r :: ms, label v ≠ label u := by
    intro v hv u hu
    have := numbering.below v hv
    have := here u hu
    omega
  constructor
  case positive => omega
  case below =>
    intro v hv
    rcases hv with hv | hv
    · have := numbering.below v hv
      omega
    · have := here v hv
      omega
  case pinned_ne =>
    intro v hv pin
    rcases hv with hv | hv
    · exact numbering.pinned_ne v hv pin
    · have := numbering.positive
      have := here v hv
      omega
  case pinned_apart =>
    intro u hu v hv pinU pinV same
    rcases hu with hu | hu
    · rcases hv with hv | hv
      · exact numbering.pinned_apart u hu v hv pinU pinV same
      · exact absurd same (less u hu v hv)
    · rcases hv with hv | hv
      · exact absurd same.symm (less v hv u hu)
      · exact (comp.joined_iff hv).mpr hu
  case along =>
    intro v hv free
    rcases hv with hv | hv
    · exact numbering.along v hv free
    · exact absurd (pinned v hv) free
  case copied =>
    intro v hv free u hu pin same
    rcases hv with hv | hv
    · rcases hu with hu | hu
      · exact numbering.copied v hv free u hu pin same
      · exact absurd same (less v hv u hu)
    · exact absurd (pinned v hv) free
  case sets_apart =>
    intro k hk
    obtain ⟨positive, below, apart⟩ := numbering.sets_apart k hk
    refine ⟨positive, by omega, ?_⟩
    intro u hu pin
    rcases hu with hu | hu
    · exact apart u hu pin
    · have := here u hu
      omega

theorem finish_free (free : ¬ ∃ m ∈ r :: ms, Indirect m) (le : next ≤ next') (below : l < next')
    (zero : l = 0 → ∀ v ∈ r :: ms, ∀ w ∈ done, Edge v w → label w = 0)
    (copied : ∀ u ∈ done, Pinned Edge Indirect u → l = label u →
      copies ∧ ∀ v ∈ r :: ms, ∀ w ∈ done, Edge v w → label w = 0 ∨ label w = l)
    (known : ∀ k ∈ sets', 0 < k ∧ k < next' ∧
      ∀ u ∈ done, Pinned Edge Indirect u → label u ≠ k) :
    Numbering Edge Indirect copies (done ∪ {v | v ∈ r :: ms}) label next' sets' := by
  have loose : ∀ v ∈ r :: ms, ¬ Pinned Edge Indirect v := by
    intro v hv pinned
    obtain ⟨m, joined, indirect⟩ := pinned
    exact free ⟨m, (comp.joined_iff hv).mp joined, indirect⟩
  constructor
  case positive => omega
  case below =>
    intro v hv
    rcases hv with hv | hv
    · have := numbering.below v hv
      omega
    · exact here v hv ▸ below
  case pinned_ne =>
    intro v hv pin
    rcases hv with hv | hv
    · exact numbering.pinned_ne v hv pin
    · exact absurd pin (loose v hv)
  case pinned_apart =>
    intro u hu v hv pinU pinV same
    rcases hu with hu | hu
    · rcases hv with hv | hv
      · exact numbering.pinned_apart u hu v hv pinU pinV same
      · exact absurd pinV (loose v hv)
    · exact absurd pinU (loose u hu)
  case along =>
    intro v hv free w edge other
    rcases hv with hv | hv
    · exact numbering.along v hv free w edge other
    · rw [here v hv]
      rcases comp.closed v hv w edge with finished | member
      · exact fun none => other (zero none v hv w finished edge)
      · exact here w member ▸ other
  case copied =>
    intro v hv free u hu pin same
    rcases hu with hu | hu
    · rcases hv with hv | hv
      · exact numbering.copied v hv free u hu pin same
      · rw [here v hv] at same
        obtain ⟨allowed, each⟩ := copied u hu pin same
        refine ⟨allowed, fun w edge => ?_⟩
        rw [← same]
        rcases comp.closed v hv w edge with finished | member
        · exact each v hv w finished edge
        · exact .inr (here w member)
    · exact absurd pin (loose u hu)
  case sets_apart =>
    intro k hk
    obtain ⟨positive, less, apart⟩ := known k hk
    refine ⟨positive, less, ?_⟩
    intro u hu pin
    rcases hu with hu | hu
    · exact apart u hu pin
    · exact absurd pin (loose u hu)

theorem finish (choice : Choice (∃ m ∈ r :: ms, Indirect m) copies
      {k | ∃ v ∈ r :: ms, ∃ w ∈ done, Edge v w ∧ label w = k} next sets l next' sets') :
    Numbering Edge Indirect copies (done ∪ {v | v ∈ r :: ms}) label next' sets' := by
  have positive := numbering.positive
  cases choice with
  | unique indirect => exact numbering.finish_unique comp here indirect rfl
  | zero free none =>
    refine numbering.finish_free comp here free (Nat.le_refl _) positive ?_ ?_
      numbering.sets_apart
    · exact fun _ v hv w hw edge => none _ ⟨v, hv, w, hw, edge, rfl⟩
    · exact fun u hu pin same => absurd same.symm (numbering.pinned_ne u hu pin)
  | copy free allowed other from_pred same =>
    have below : l < next := by
      obtain ⟨_, _, w, hw, _, equal⟩ := from_pred
      exact equal ▸ numbering.below w hw
    refine numbering.finish_free comp here free (Nat.le_refl _) below ?_ ?_
      numbering.sets_apart
    · exact fun none => absurd none other
    · exact fun _ _ _ _ => ⟨allowed, fun v hv w hw edge => same _ ⟨v, hv, w, hw, edge, rfl⟩⟩
  | known free member =>
    obtain ⟨some, below, apart⟩ := numbering.sets_apart l member
    refine numbering.finish_free comp here free (Nat.le_refl _) below ?_ ?_
      numbering.sets_apart
    · exact fun none => absurd none (Nat.ne_of_gt some)
    · exact fun u hu pin same => absurd same.symm (apart u hu pin)
  | fresh free =>
    have new : ∀ u ∈ done, label u ≠ next := fun u hu => Nat.ne_of_lt (numbering.below u hu)
    refine numbering.finish_free comp here free (Nat.le_succ _) (Nat.lt_succ_self _) ?_ ?_ ?_
    · exact fun none => absurd none (Nat.ne_of_gt positive)
    · exact fun u hu _ same => absurd same.symm (new u hu)
    · intro k hk
      rcases Set.mem_insert_iff.mp hk with same | member
      · rw [same]
        exact ⟨positive, Nat.lt_succ_self _, fun u hu _ => new u hu⟩
      · obtain ⟨some, below, apart⟩ := numbering.sets_apart k member
        exact ⟨some, Nat.lt_succ_of_lt below, apart⟩

end Finish

end Numbering
end ValueNumbering
