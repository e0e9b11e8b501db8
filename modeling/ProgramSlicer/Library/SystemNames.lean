import ProgramSlicer.Library.InclusionConstraints

/-!
The same inclusion constraints over other nodes. Every node that is used has one name in
the other system; nodes may share a name if nothing points to them.
-/
namespace InclusionConstraints
variable {V W : Type}

/-- A relation between nodes and the same relation between their names. -/
structure Carried (names : V → W → Prop) (R : V → V → Prop) (R' : W → W → Prop) : Prop where
  forth : ∀ d s, R d s → ∃ p q, names d p ∧ names s q ∧ R' p q
  back : ∀ p q, R' p q → ∀ d, names d p → ∃ s, names s q ∧ R d s
  used : ∀ p q, R' p q → ∃ d, names d p

structure Renames (S : System V) (T : System W) (names : V → W → Prop) : Prop where
  unique : ∀ n p q, names n p → names n q → p = q
  addrOf : Carried names S.addrOf T.addrOf
  copy : Carried names S.copy T.copy
  load : Carried names S.load T.load
  store : Carried names S.store T.store
  object : ∀ d o, T.addrOf d o → ∀ n m, names n o → names m o → n = m

namespace Renames
variable {S : System V} {T : System W} {names : V → W → Prop} (renames : Renames S T names)
include renames

theorem forth {n o : V} (derived : Derives S n o) :
    ∃ p q, names n p ∧ names o q ∧ Derives T p q := by
  induction derived with
  | addrOf c =>
    obtain ⟨p, q, isD, isS, c'⟩ := renames.addrOf.forth _ _ c
    exact ⟨p, q, isD, isS, .addrOf c'⟩
  | copy c _ ih =>
    obtain ⟨p, q, isD, isS, c'⟩ := renames.copy.forth _ _ c
    obtain ⟨q', r, isS', isO, value⟩ := ih
    obtain rfl := renames.unique _ _ _ isS isS'
    exact ⟨p, r, isD, isO, .copy c' value⟩
  | load c _ _ ihPointee ihValue =>
    obtain ⟨p, q, isD, isS, c'⟩ := renames.load.forth _ _ c
    obtain ⟨q', x, isS', isX, pointee⟩ := ihPointee
    obtain ⟨x', r, isX', isO, value⟩ := ihValue
    obtain rfl := renames.unique _ _ _ isS isS'
    obtain rfl := renames.unique _ _ _ isX isX'
    exact ⟨p, r, isD, isO, .load c' pointee value⟩
  | store c _ _ ihPointee ihValue =>
    obtain ⟨p, q, isD, isS, c'⟩ := renames.store.forth _ _ c
    obtain ⟨p', x, isD', isX, pointee⟩ := ihPointee
    obtain ⟨q', r, isS', isO, value⟩ := ihValue
    obtain rfl := renames.unique _ _ _ isD isD'
    obtain rfl := renames.unique _ _ _ isS isS'
    exact ⟨x, r, isX, isO, .store c' pointee value⟩

theorem back {p q : W} (derived : Derives T p q) :
    ∀ n, names n p → ∃ o, names o q ∧ Derives S n o := by
  induction derived with
  | addrOf c =>
    intro n isN
    obtain ⟨o, isO, c'⟩ := renames.addrOf.back _ _ c n isN
    exact ⟨o, isO, .addrOf c'⟩
  | copy c _ ih =>
    intro n isN
    obtain ⟨s, isS, c'⟩ := renames.copy.back _ _ c n isN
    obtain ⟨o, isO, value⟩ := ih s isS
    exact ⟨o, isO, .copy c' value⟩
  | load c _ _ ihPointee ihValue =>
    intro n isN
    obtain ⟨s, isS, c'⟩ := renames.load.back _ _ c n isN
    obtain ⟨x, isX, pointee⟩ := ihPointee s isS
    obtain ⟨o, isO, value⟩ := ihValue x isX
    exact ⟨o, isO, .load c' pointee value⟩
  | store c derived _ ihPointee ihValue =>
    intro n isN
    obtain ⟨d, isD⟩ := renames.store.used _ _ c
    obtain ⟨s, isS, c'⟩ := renames.store.back _ _ c d isD
    obtain ⟨x, isX, pointee⟩ := ihPointee d isD
    obtain ⟨o, isO, value⟩ := ihValue s isS
    -- the node that was stored to is the only one of its name
    obtain ⟨e, taken⟩ := address_of_derives derived
    obtain rfl := renames.object _ _ taken n x isN isX
    exact ⟨o, isO, .store c' pointee value⟩

theorem derives_iff {n o : V} {p q : W} (isN : names n p) (isO : names o q) :
    Derives S n o ↔ Derives T p q := by
  constructor
  · intro derived
    obtain ⟨p', q', isN', isO', derived'⟩ := renames.forth derived
    rw [renames.unique _ _ _ isN isN', renames.unique _ _ _ isO isO']
    exact derived'
  · intro derived
    obtain ⟨o', isO', derived'⟩ := renames.back derived n isN
    obtain ⟨e, taken⟩ := address_of_derives derived
    rw [renames.object _ _ taken o o' isO isO']
    exact derived'

end Renames
end InclusionConstraints
