import Mathlib.Logic.Relation

/-!
Paths through a graph whose edges are neutral, or open a call of some site, or
return to some site. Realizable words are those of the usual grammar
(balanced | return)* (balanced | call)*. The main result is about graphs that
have no summary edges but in which every site is bypassed by a neutral edge:
there the grammar and the two-phase reading agree.
-/
namespace CallStrings
variable {N S : Type}

inductive Letter (S : Type) where
  | neutral : Letter S
  | call (site : S) : Letter S
  | ret (site : S) : Letter S
  deriving DecidableEq, Repr

inductive Balanced : List (Letter S) → Prop where
  | nil : Balanced []
  | neutral : Balanced [.neutral]
  | wrap (i : S) {w : List (Letter S)} (inner : Balanced w) :
      Balanced (.call i :: (w ++ [.ret i]))
  | append {u v : List (Letter S)} (left : Balanced u) (right : Balanced v) : Balanced (u ++ v)

/-- (balanced | return)* -/
inductive Ascending : List (Letter S) → Prop where
  | nil : Ascending []
  | balanced {u w : List (Letter S)} (head : Balanced u) (tail : Ascending w) : Ascending (u ++ w)
  | ret (i : S) {w : List (Letter S)} (tail : Ascending w) : Ascending (.ret i :: w)

/-- (balanced | call)* -/
inductive Descending : List (Letter S) → Prop where
  | nil : Descending []
  | balanced {u w : List (Letter S)} (head : Balanced u) (tail : Descending w) :
      Descending (u ++ w)
  | call (i : S) {w : List (Letter S)} (tail : Descending w) : Descending (.call i :: w)

def Realizable (w : List (Letter S)) : Prop :=
  ∃ u v, w = u ++ v ∧ Ascending u ∧ Descending v

/-- Every call of the word comes before every return. -/
def CallsFirst (w : List (Letter S)) : Prop :=
  ∃ u v, w = u ++ v ∧ (∀ i, .ret i ∉ u) ∧ (∀ i, .call i ∉ v)

inductive Walk (E : N → Letter S → N → Prop) : N → List (Letter S) → N → Prop where
  | nil (a : N) : Walk E a [] a
  | cons {a b c : N} {l : Letter S} {w : List (Letter S)} (edge : E a l b)
      (tail : Walk E b w c) : Walk E a (l :: w) c

variable {E : N → Letter S → N → Prop}

theorem walk_append {a b c : N} {u v : List (Letter S)} (left : Walk E a u b)
    (right : Walk E b v c) : Walk E a (u ++ v) c := by
  induction left with
  | nil => exact right
  | cons edge _ ih => exact .cons edge (ih right)

theorem walk_split {a c : N} {u v : List (Letter S)} (walk : Walk E a (u ++ v) c) :
    ∃ b, Walk E a u b ∧ Walk E b v c := by
  induction u generalizing a with
  | nil => exact ⟨a, .nil a, walk⟩
  | cons l u ih =>
    cases walk with
    | cons edge tail =>
      obtain ⟨b, left, right⟩ := ih tail
      exact ⟨b, .cons edge left, right⟩

theorem walk_single {a b : N} {l : Letter S} (walk : Walk E a [l] b) : E a l b := by
  cases walk with
  | cons edge tail =>
    cases tail
    exact edge

def Along (E : N → Letter S → N → Prop) (allow : Letter S → Prop) : N → N → Prop :=
  Relation.ReflTransGen fun a b => ∃ l, allow l ∧ E a l b

abbrev Flat (E : N → Letter S → N → Prop) : N → N → Prop := Along E (· = .neutral)
abbrev Climb (E : N → Letter S → N → Prop) : N → N → Prop := Along E fun l => ∀ i, l ≠ .call i
abbrev Descend (E : N → Letter S → N → Prop) : N → N → Prop := Along E fun l => ∀ i, l ≠ .ret i

theorem along_mono {p q : Letter S → Prop} (weaker : ∀ l, p l → q l) {a b : N}
    (path : Along E p a b) : Along E q a b :=
  Relation.ReflTransGen.mono (fun _ _ ⟨l, hl, edge⟩ => ⟨l, weaker l hl, edge⟩) _ _ path

theorem flat_climbs {a b : N} (path : Flat E a b) : Climb E a b :=
  along_mono (by rintro l rfl i; simp) path

theorem flat_descends {a b : N} (path : Flat E a b) : Descend E a b :=
  along_mono (by rintro l rfl i; simp) path

theorem along_iff_walk {p : Letter S → Prop} {a b : N} :
    Along E p a b ↔ ∃ w, (∀ l ∈ w, p l) ∧ Walk E a w b := by
  constructor
  · intro path
    induction path using Relation.ReflTransGen.head_induction_on with
    | refl => exact ⟨[], by simp, .nil _⟩
    | head edge _ ih =>
      obtain ⟨l, hl, edge⟩ := edge
      obtain ⟨w, hw, tail⟩ := ih
      exact ⟨l :: w, List.forall_mem_cons.mpr ⟨hl, hw⟩, .cons edge tail⟩
  · rintro ⟨w, hw, walk⟩
    induction walk with
    | nil => exact .refl
    | @cons a b c l w edge _ ih =>
      exact .head ⟨l, hw l (by simp), edge⟩ (ih fun l hl => hw l (by simp [hl]))

theorem ascending_of_no_call {w : List (Letter S)} (h : ∀ l ∈ w, ∀ i, l ≠ .call i) :
    Ascending w := by
  induction w with
  | nil => exact .nil
  | cons l w ih =>
    have tail := ih fun l hl => h l (by simp [hl])
    cases l with
    | neutral => exact .balanced .neutral tail
    | call i => exact absurd rfl (h _ (by simp) i)
    | ret i => exact .ret i tail

theorem descending_of_no_ret {w : List (Letter S)} (h : ∀ l ∈ w, ∀ i, l ≠ .ret i) :
    Descending w := by
  induction w with
  | nil => exact .nil
  | cons l w ih =>
    have tail := ih fun l hl => h l (by simp [hl])
    cases l with
    | neutral => exact .balanced .neutral tail
    | call i => exact .call i tail
    | ret i => exact absurd rfl (h _ (by simp) i)

theorem realizable_of_two_phases {a b c : N} (up : Climb E a b) (down : Descend E b c) :
    ∃ w, Realizable w ∧ Walk E a w c := by
  obtain ⟨u, hu, left⟩ := along_iff_walk.mp up
  obtain ⟨v, hv, right⟩ := along_iff_walk.mp down
  exact ⟨u ++ v, ⟨u, v, rfl, ascending_of_no_call hu, descending_of_no_ret hv⟩,
    walk_append left right⟩

theorem calls_first_iff {a c : N} :
    (∃ w, CallsFirst w ∧ Walk E a w c) ↔ ∃ b, Descend E a b ∧ Climb E b c := by
  constructor
  · rintro ⟨_, ⟨u, v, rfl, noRet, noCall⟩, walk⟩
    obtain ⟨b, left, right⟩ := walk_split walk
    exact ⟨b, along_iff_walk.mpr ⟨u, fun l hl i same => noRet i (same ▸ hl), left⟩,
      along_iff_walk.mpr ⟨v, fun l hl i same => noCall i (same ▸ hl), right⟩⟩
  · rintro ⟨b, down, up⟩
    obtain ⟨u, hu, left⟩ := along_iff_walk.mp down
    obtain ⟨v, hv, right⟩ := along_iff_walk.mp up
    exact ⟨u ++ v, ⟨u, v, rfl, fun i mem => hu _ mem i rfl, fun i mem => hv _ mem i rfl⟩,
      walk_append left right⟩

/-- Calls start at a site or at one of its argument nodes, an argument node is
    entered only from its site, and what a return enters is also entered
    directly from the site. -/
structure Bypassed (E : N → Letter S → N → Prop) (site : S → N) (input : S → N → Prop) :
    Prop where
  call_source : ∀ {a b i}, E a (.call i) b → a = site i ∨ input i a
  ret_bypass : ∀ {a b i}, E a (.ret i) b → E (site i) .neutral b
  input_entry : ∀ {a b l i}, input i b → E a l b → a = site i ∧ l = .neutral
  site_not_input : ∀ i j, ¬ input i (site j)

section Bypass
variable {site : S → N} {input : S → N → Prop}

def From (input : S → N → Prop) (site : S → N) (goal : N → Prop) (a : N) : Prop :=
  goal a ∨ ∃ i, input i a ∧ goal (site i)

theorem flat_into_input (shape : Bypassed E site input) {a b : N} {i : S} (path : Flat E a b)
    (arg : input i b) : a = b ∨ Flat E a (site i) := by
  rcases Relation.ReflTransGen.cases_tail path with same | ⟨c, before, l, _, edge⟩
  · exact Or.inl same.symm
  · exact Or.inr ((shape.input_entry arg edge).1 ▸ before)

theorem from_after_flat (shape : Bypassed E site input) {goal : N → Prop}
    (extend : ∀ {x y}, Flat E x y → goal y → goal x) {a b : N}
    (front : From input site (Flat E · b) a) (back : From input site goal b) :
    From input site goal a := by
  rcases back with back | ⟨j, argB, back⟩
  · rcases front with front | ⟨i, argA, front⟩
    · exact Or.inl (extend front back)
    · exact Or.inr ⟨i, argA, extend front back⟩
  · rcases front with front | ⟨i, argA, front⟩
    · rcases flat_into_input shape front argB with same | toSite
      · exact Or.inr ⟨j, same ▸ argB, back⟩
      · exact Or.inl (extend toSite back)
    · rcases flat_into_input shape front argB with same | toSite
      · exact absurd (same ▸ argB) (shape.site_not_input j i)
      · exact Or.inr ⟨i, argA, extend toSite back⟩

theorem balanced_is_flat (shape : Bypassed E site input) {w : List (Letter S)}
    (word : Balanced w) : ∀ {a b}, Walk E a w b → From input site (Flat E · b) a := by
  induction word with
  | nil =>
    intro a b walk
    cases walk
    exact Or.inl .refl
  | neutral =>
    intro a b walk
    exact Or.inl (.single ⟨_, rfl, walk_single walk⟩)
  | wrap i _ _ =>
    intro a b walk
    cases walk with
    | cons edge rest =>
      obtain ⟨c, _, close⟩ := walk_split rest
      have bypass : Flat E (site i) b :=
        .single ⟨_, rfl, shape.ret_bypass (walk_single close)⟩
      rcases shape.call_source edge with atSite | arg
      · exact Or.inl (atSite ▸ bypass)
      · exact Or.inr ⟨i, arg, bypass⟩
  | append _ _ left right =>
    intro a b walk
    obtain ⟨c, first, second⟩ := walk_split walk
    exact from_after_flat shape (fun x y => x.trans y) (left first) (right second)

theorem ascending_climbs (shape : Bypassed E site input) {w : List (Letter S)}
    (word : Ascending w) : ∀ {a b}, Walk E a w b → From input site (Climb E · b) a := by
  induction word with
  | nil =>
    intro a b walk
    cases walk
    exact Or.inl .refl
  | balanced head _ ih =>
    intro a b walk
    obtain ⟨c, first, second⟩ := walk_split walk
    exact from_after_flat shape (fun x y => (flat_climbs x).trans y)
      (balanced_is_flat shape head first) (ih second)
  | ret i _ ih =>
    intro a b walk
    cases walk with
    | cons edge rest =>
      rcases ih rest with path | ⟨j, arg, _⟩
      · exact Or.inl (.head ⟨_, by simp, edge⟩ path)
      · exact absurd (shape.input_entry arg edge).2 (by simp)

theorem descending_descends (shape : Bypassed E site input) {w : List (Letter S)}
    (word : Descending w) : ∀ {a b}, Walk E a w b → From input site (Descend E · b) a := by
  induction word with
  | nil =>
    intro a b walk
    cases walk
    exact Or.inl .refl
  | balanced head _ ih =>
    intro a b walk
    obtain ⟨c, first, second⟩ := walk_split walk
    exact from_after_flat shape (fun x y => (flat_descends x).trans y)
      (balanced_is_flat shape head first) (ih second)
  | call i _ ih =>
    intro a b walk
    cases walk with
    | cons edge rest =>
      rcases ih rest with path | ⟨j, arg, _⟩
      · exact Or.inl (.head ⟨_, by simp, edge⟩ path)
      · exact absurd (shape.input_entry arg edge).2 (by simp)

/-- Realizable paths are exactly the two-phase paths, for every start that is
    not an argument node. -/
theorem realizable_iff_two_phases (shape : Bypassed E site input) {a c : N}
    (start : ∀ i, ¬ input i a) :
    (∃ w, Realizable w ∧ Walk E a w c) ↔ ∃ b, Climb E a b ∧ Descend E b c := by
  constructor
  · rintro ⟨_, ⟨u, v, rfl, up, down⟩, walk⟩
    obtain ⟨b, left, right⟩ := walk_split walk
    rcases ascending_climbs shape up left with climb | ⟨i, arg, _⟩
    · rcases descending_descends shape down right with descend | ⟨j, arg, descend⟩
      · exact ⟨b, climb, descend⟩
      · rcases Relation.ReflTransGen.cases_tail climb with same | ⟨d, before, l, _, edge⟩
        · exact absurd (same ▸ arg) (start j)
        · exact ⟨site j, (shape.input_entry arg edge).1 ▸ before, descend⟩
    · exact absurd arg (start i)
  · rintro ⟨b, up, down⟩
    exact realizable_of_two_phases up down

end Bypass
end CallStrings
