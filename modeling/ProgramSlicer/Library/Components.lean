import Mathlib.Logic.Relation
import Mathlib.Tactic.Common

/-!
Strongly connected components in the order in which a depth-first search
finishes them: one root with its other members, closed up to what is finished.
-/
namespace Components
open Relation
variable {N : Type} {Edge : N → N → Prop}

def Joined (Edge : N → N → Prop) (a b : N) : Prop :=
  ReflTransGen Edge a b ∧ ReflTransGen Edge b a

theorem joined_refl (a : N) : Joined Edge a a := ⟨.refl, .refl⟩

theorem joined_trans {a b c : N} (ab : Joined Edge a b) (bc : Joined Edge b c) :
    Joined Edge a c :=
  ⟨ab.1.trans bc.1, bc.2.trans ab.2⟩

theorem eq_of_joined_end {a b : N} (last : ∀ w, ¬ Edge b w) (ab : Joined Edge a b) : a = b := by
  rcases ReflTransGen.cases_head ab.2 with same | ⟨w, edge, _⟩
  · exact same.symm
  · exact absurd edge (last w)

/-- `r` and `ms` are one component, and everything they lead to outside it is in `done`. -/
structure IsComponent (Edge : N → N → Prop) (done : Set N) (r : N) (ms : List N) : Prop where
  settled : ∀ v ∈ done, ∀ w, Edge v w → w ∈ done
  fresh : ∀ v ∈ r :: ms, v ∉ done
  nodup : (r :: ms).Nodup
  to_member : ∀ m ∈ ms, ReflTransGen Edge r m
  to_root : ∀ m ∈ ms, ReflTransGen Edge m r
  closed : ∀ v ∈ r :: ms, ∀ w, Edge v w → w ∈ done ∨ w ∈ r :: ms

namespace IsComponent
variable {done : Set N} {r : N} {ms : List N}

theorem reaches (comp : IsComponent Edge done r ms) {a b : N} (ha : a ∈ r :: ms)
    (hb : b ∈ r :: ms) : ReflTransGen Edge a b := by
  have toRoot : ReflTransGen Edge a r := by
    rcases List.mem_cons.mp ha with root | member
    · rw [root]
    · exact comp.to_root a member
  have fromRoot : ReflTransGen Edge r b := by
    rcases List.mem_cons.mp hb with root | member
    · rw [root]
    · exact comp.to_member b member
  exact toRoot.trans fromRoot

theorem done_path (comp : IsComponent Edge done r ms) {a b : N} (path : ReflTransGen Edge a b)
    (ha : a ∈ done) : b ∈ done := by
  induction path with
  | refl => exact ha
  | tail _ edge ih => exact comp.settled _ ih _ edge

theorem whole (comp : IsComponent Edge done r ms) {a b : N} (ha : a ∈ r :: ms)
    (there : ReflTransGen Edge a b) (back : ReflTransGen Edge b a) : b ∈ r :: ms := by
  induction there with
  | refl => exact ha
  | @tail x y first edge ih =>
    have hx := ih (ReflTransGen.head edge back)
    rcases comp.closed x hx y edge with finished | member
    · exact absurd (comp.done_path back finished) (comp.fresh a ha)
    · exact member

theorem entered (comp : IsComponent Edge done r ms) (more : ms ≠ []) {m : N}
    (hm : m ∈ r :: ms) : ∃ v ∈ r :: ms, Edge v m := by
  have root := (List.nodup_cons.mp comp.nodup).1
  obtain ⟨a, ha, other⟩ : ∃ a ∈ r :: ms, m ≠ a := by
    rcases List.mem_cons.mp hm with here | member
    · obtain ⟨q, qs, rfl⟩ := List.exists_cons_of_ne_nil more
      exact ⟨q, by simp, fun same => root (by simp [← here, same])⟩
    · exact ⟨r, by simp, fun same => root (same ▸ member)⟩
  rcases ReflTransGen.cases_tail (comp.reaches ha hm) with same | ⟨v, path, edge⟩
  · exact absurd same other
  · exact ⟨v, comp.whole ha path ((ReflTransGen.single edge).trans (comp.reaches hm ha)), edge⟩

theorem joined_iff (comp : IsComponent Edge done r ms) {a b : N} (ha : a ∈ r :: ms) :
    Joined Edge b a ↔ b ∈ r :: ms :=
  ⟨fun joined => comp.whole ha joined.2 joined.1,
    fun hb => ⟨comp.reaches hb ha, comp.reaches ha hb⟩⟩

theorem reached (comp : IsComponent Edge done r ms) {a b : N} (ha : a ∈ r :: ms)
    (path : ReflTransGen Edge a b) : b ∈ done ∨ b ∈ r :: ms := by
  induction path with
  | refl => exact .inr ha
  | @tail x y _ edge ih =>
    rcases ih with finished | member
    · exact .inl (comp.settled x finished y edge)
    · exact comp.closed x member y edge

theorem carries (comp : IsComponent Edge done r ms) {P : N → Prop}
    (pass : ∀ v ∈ r :: ms, ∀ w ∈ r :: ms, Edge v w → P v → P w) {a b : N}
    (ha : a ∈ r :: ms) (hb : b ∈ r :: ms) (start : P a) : P b := by
  have both : ∀ x, ReflTransGen Edge a x → x ∈ done ∨ (x ∈ r :: ms ∧ P x) := by
    intro x path
    induction path with
    | refl => exact .inr ⟨ha, start⟩
    | @tail x y _ edge ih =>
      rcases ih with finished | ⟨member, hx⟩
      · exact .inl (comp.settled x finished y edge)
      · rcases comp.closed x member y edge with finished | inside
        · exact .inl finished
        · exact .inr ⟨inside, pass x member y inside edge hx⟩
  rcases both b (comp.reaches ha hb) with finished | ⟨_, holds⟩
  · exact absurd finished (comp.fresh b hb)
  · exact holds

end IsComponent
end Components
