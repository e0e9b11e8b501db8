import Mathlib.Data.Finset.Card
import Mathlib.Data.Finset.Prod
import Mathlib.Data.Finset.Union
import ProgramSlicer.Library.InclusionConstraints

/-!
The least solution of finitely many inclusion constraints, computed by rounds. A round
adds what follows in one step from what is known; since only the nodes that the
constraints name come into it, the rounds come to a stop.
-/
namespace InclusionConstraints

section Saturation
variable {α : Type} [DecidableEq α]

def saturate (round : Finset α → Finset α) : Nat → Finset α → Finset α
  | 0, known => known
  | fuel + 1, known => if round known = known then known else saturate round fuel (round known)

variable {round : Finset α → Finset α}

theorem saturate_induct {P : Finset α → Prop} (step : ∀ known, P known → P (round known))
    (fuel : Nat) {known : Finset α} (start : P known) : P (saturate round fuel known) := by
  induction fuel generalizing known with
  | zero => exact start
  | succ fuel ih =>
    unfold saturate
    split
    · exact start
    · exact ih (step known start)

theorem saturate_fixed {all : Finset α} (grows : ∀ known, known ⊆ round known)
    (inside : ∀ known, known ⊆ all → round known ⊆ all) {fuel : Nat} {known : Finset α}
    (start : known ⊆ all) (enough : all.card < fuel + known.card) :
    round (saturate round fuel known) = saturate round fuel known := by
  induction fuel generalizing known with
  | zero =>
    have bound := Finset.card_le_card start
    omega
  | succ fuel ih =>
    unfold saturate
    split
    · assumption
    · rename_i more
      have strict := Finset.card_lt_card ((grows known).ssubset_of_ne (Ne.symm more))
      exact ih (inside known start) (by omega)

end Saturation

variable {V : Type} [DecidableEq V]

/-- A system given by its constraints `(d, s)` of each kind. -/
structure Finitely (V : Type) where
  addrOf : Finset (V × V)
  copy : Finset (V × V)
  load : Finset (V × V)
  store : Finset (V × V)

namespace Finitely

def system (S : Finitely V) : System V where
  addrOf d s := (d, s) ∈ S.addrOf
  copy d s := (d, s) ∈ S.copy
  load d s := (d, s) ∈ S.load
  store d s := (d, s) ∈ S.store

def targets (known : Finset (V × V)) (n : V) : Finset V := (known.filter (·.1 = n)).image (·.2)

def follows (S : Finitely V) (known : Finset (V × V)) : Finset (V × V) :=
  S.addrOf ∪
  (S.copy.biUnion fun c => {c.1} ×ˢ targets known c.2) ∪
  (S.load.biUnion fun c => (targets known c.2).biUnion fun p => {c.1} ×ˢ targets known p) ∪
  (S.store.biUnion fun c => targets known c.1 ×ˢ targets known c.2)

def round (S : Finitely V) (known : Finset (V × V)) : Finset (V × V) := known ∪ S.follows known

def nodes (S : Finitely V) : Finset V :=
  let all := S.addrOf ∪ S.copy ∪ S.load ∪ S.store
  all.image (·.1) ∪ all.image (·.2)

/-- The pairs of a node and a target that the constraints give rise to. -/
def reached (S : Finitely V) : Finset (V × V) :=
  saturate S.round (S.nodes.card * S.nodes.card + 1) ∅

@[simp] theorem mem_targets {known : Finset (V × V)} {n o : V} :
    o ∈ targets known n ↔ (n, o) ∈ known := by
  simp [targets]

theorem mem_follows {S : Finitely V} {known : Finset (V × V)} {n o : V} :
    (n, o) ∈ S.follows known ↔ (n, o) ∈ S.addrOf ∨
      (∃ s, (n, s) ∈ S.copy ∧ (s, o) ∈ known) ∨
      (∃ s, (n, s) ∈ S.load ∧ ∃ p, (s, p) ∈ known ∧ (p, o) ∈ known) ∨
      ∃ d s, (d, s) ∈ S.store ∧ (d, n) ∈ known ∧ (s, o) ∈ known := by
  simp only [follows, Finset.mem_union, Finset.mem_biUnion, Finset.mem_product,
    Finset.mem_singleton, mem_targets, Prod.exists, or_assoc]
  grind

variable (S : Finitely V)

theorem round_sound {known : Finset (V × V)}
    (sound : ∀ n o, (n, o) ∈ known → Derives S.system n o) (n o : V)
    (mem : (n, o) ∈ S.round known) : Derives S.system n o := by
  rcases Finset.mem_union.mp mem with old | new
  · exact sound n o old
  · rcases mem_follows.mp new with c | ⟨s, c, value⟩ | ⟨s, c, p, pointee, value⟩ |
      ⟨d, s, c, pointee, value⟩
    · exact .addrOf c
    · exact .copy c (sound _ _ value)
    · exact .load c (sound _ _ pointee) (sound _ _ value)
    · exact .store c (sound _ _ pointee) (sound _ _ value)

theorem round_inside {known : Finset (V × V)} (inside : known ⊆ S.nodes ×ˢ S.nodes) :
    S.round known ⊆ S.nodes ×ˢ S.nodes := by
  have ends : ∀ {d s}, (d, s) ∈ S.addrOf ∪ S.copy ∪ S.load ∪ S.store →
      d ∈ S.nodes ∧ s ∈ S.nodes := by
    intro d s mem
    exact ⟨Finset.mem_union_left _ (Finset.mem_image_of_mem (·.1) mem),
      Finset.mem_union_right _ (Finset.mem_image_of_mem (·.2) mem)⟩
  have both : ∀ {n o}, (n, o) ∈ known → n ∈ S.nodes ∧ o ∈ S.nodes :=
    fun mem => Finset.mem_product.mp (inside mem)
  rintro ⟨n, o⟩ mem
  rw [Finset.mem_product]
  rcases Finset.mem_union.mp mem with old | new
  · exact both old
  · rcases mem_follows.mp new with c | ⟨s, c, value⟩ | ⟨s, c, p, _, value⟩ |
      ⟨d, s, _, pointee, value⟩
    · exact ends (by simp [c])
    · exact ⟨(ends (s := s) (by simp [c])).1, (both value).2⟩
    · exact ⟨(ends (s := s) (by simp [c])).1, (both value).2⟩
    · exact ⟨(both pointee).2, (both value).2⟩

theorem reached_closed : S.follows S.reached ⊆ S.reached := by
  have fixed : S.round S.reached = S.reached := by
    have inside : ∀ known, known ⊆ S.nodes ×ˢ S.nodes → S.round known ⊆ S.nodes ×ˢ S.nodes :=
      fun known => S.round_inside
    apply saturate_fixed (fun known => Finset.subset_union_left) inside (Finset.empty_subset _)
    simp
  exact fun x mem => fixed ▸ Finset.mem_union_right _ mem

/-- What the rounds reach is the least solution. -/
theorem mem_reached {n o : V} : (n, o) ∈ S.reached ↔ o ∈ solution S.system n := by
  constructor
  · exact saturate_induct (P := fun known => ∀ n o, (n, o) ∈ known → Derives S.system n o)
      (fun known sound => S.round_sound sound) _ (by simp) n o
  · intro derived
    have closed := S.reached_closed
    induction derived with
    | addrOf c => exact closed (mem_follows.mpr (Or.inl c))
    | copy c _ value => exact closed (mem_follows.mpr (Or.inr (Or.inl ⟨_, c, value⟩)))
    | load c _ _ pointee value =>
      exact closed (mem_follows.mpr (Or.inr (Or.inr (Or.inl ⟨_, c, _, pointee, value⟩))))
    | store c _ _ pointee value =>
      exact closed (mem_follows.mpr (Or.inr (Or.inr (Or.inr ⟨_, _, c, pointee, value⟩))))

end Finitely
end InclusionConstraints
