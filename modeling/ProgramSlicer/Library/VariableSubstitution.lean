import ProgramSlicer.Library.InclusionConstraints

/-!
Offline variable substitution over an arbitrary type of nodes. A labelling says of
some nodes that they point to nothing, and of others that they point to nothing
but one object; it is checked constraint by constraint, without solving them.
Constraints that are rewritten on its account have at least the old solution.
-/
namespace InclusionConstraints
variable {V : Type}

/-- `zero n`: nothing is pointed to by `n`. `only n o`: nothing but `o` is. What is stored
    through a pointer goes to a node whose address is taken, and those are left alone. -/
structure Labelling (S : System V) (zero : V → Prop) (only : V → V → Prop) : Prop where
  addrOf : ∀ d s, S.addrOf d s → ¬ zero d ∧ ∀ o, only d o → s = o
  copy : ∀ d s, S.copy d s → ¬ zero s → ¬ zero d ∧ ∀ o, only d o → only s o
  load : ∀ d s, S.load d s → ¬ zero d ∧ ∀ o, ¬ only d o
  taken : ∀ d s, S.addrOf d s → ¬ zero s ∧ ∀ o, ¬ only s o

/-- Each constraint is kept at the representatives, or replaced by what it comes to where a
    pointer points to one object, or left out where it says nothing. -/
structure Rewrites (S S' : System V) (rep : V → V) (zero : V → Prop) (only : V → V → Prop) :
    Prop where
  addrOf : ∀ d s, S.addrOf d s → zero d ∨ S'.addrOf (rep d) s
  copy : ∀ d s, S.copy d s → zero d ∨ zero s ∨ rep d = rep s ∨ S'.copy (rep d) (rep s) ∨
    ∃ o, only s o ∧ S'.addrOf (rep d) o
  load : ∀ d s, S.load d s → zero d ∨ zero s ∨ S'.load (rep d) (rep s) ∨
    ∃ o, only s o ∧ (rep d = rep o ∨ S'.copy (rep d) o)
  store : ∀ d s, S.store d s → zero d ∨ S'.store (rep d) (rep s) ∨
    ∃ o, only d o ∧ (rep o = rep s ∨ S'.copy o (rep s))

variable {S S' : System V} {rep : V → V} {zero : V → Prop} {only : V → V → Prop}

theorem not_zero_of_derives (labels : Labelling S zero only) {n o : V}
    (derived : Derives S n o) : ¬ zero n := by
  induction derived with
  | addrOf c => exact (labels.addrOf _ _ c).1
  | copy c _ ih => exact (labels.copy _ _ c ih).1
  | load c => exact (labels.load _ _ c).1
  | store _ pointee =>
    obtain ⟨d, c⟩ := address_of_derives pointee
    exact (labels.taken _ _ c).1

theorem only_of_derives (labels : Labelling S zero only) {n o p : V}
    (derived : Derives S n o) (label : only n p) : o = p := by
  induction derived with
  | addrOf c => exact (labels.addrOf _ _ c).2 p label
  | copy c value ih =>
    have here := labels.copy _ _ c (not_zero_of_derives labels value)
    exact ih (here.2 p label)
  | load c => exact absurd label ((labels.load _ _ c).2 p)
  | store _ pointee =>
    obtain ⟨d, c⟩ := address_of_derives pointee
    exact absurd label ((labels.taken _ _ c).2 p)

/-- The rewritten constraints lose nothing. -/
theorem solution_le_rewritten (labels : Labelling S zero only)
    (rewrites : Rewrites S S' rep zero only) (idem : ∀ n, rep (rep n) = rep n) :
    solution S ≤ solution (S'.identify rep) := by
  have solves := (solves_identify.mp (solution_solves (S'.identify rep))).1
  have shared : ∀ {a b}, rep a = rep b →
      solution (S'.identify rep) a = solution (S'.identify rep) b := solution_identify
  have root : ∀ n, solution (S'.identify rep) (rep n) = solution (S'.identify rep) n :=
    fun n => shared (idem n)
  intro n o derived
  induction derived with
  | @addrOf d s c =>
    rcases rewrites.addrOf d s c with none | kept
    · exact absurd none (labels.addrOf d s c).1
    · rw [← root d]
      exact solves.addrOf _ _ kept
  | @copy d s o c value ih =>
    have source := not_zero_of_derives labels value
    rcases rewrites.copy d s c with none | none | same | kept | ⟨p, label, kept⟩
    · exact absurd none (labels.copy d s c source).1
    · exact absurd none source
    · rw [shared same]
      exact ih
    · rw [← root s] at ih
      rw [← root d]
      exact solves.copy _ _ kept ih
    · rw [← root d, only_of_derives labels value label]
      exact solves.addrOf _ _ kept
  | @load d s p o c pointee value ihPointee ih =>
    rcases rewrites.load d s c with none | none | kept | ⟨q, label, replaced⟩
    · exact absurd none (labels.load d s c).1
    · exact absurd none (not_zero_of_derives labels pointee)
    · rw [← root s] at ihPointee
      rw [← root d]
      exact solves.load _ _ kept p ihPointee ih
    · rw [only_of_derives labels pointee label] at ih
      rcases replaced with same | kept
      · rw [shared same]
        exact ih
      · rw [← root d]
        exact solves.copy _ _ kept ih
  | @store d s p o c pointee value ihPointee ih =>
    rcases rewrites.store d s c with none | kept | ⟨q, label, replaced⟩
    · exact absurd none (not_zero_of_derives labels pointee)
    · rw [← root s] at ih
      rw [← root d] at ihPointee
      exact solves.store _ _ kept p ihPointee ih
    · rw [only_of_derives labels pointee label]
      rcases replaced with same | kept
      · rw [shared same]
        exact ih
      · rw [← root s] at ih
        exact solves.copy _ _ kept ih

end InclusionConstraints
