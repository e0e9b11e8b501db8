import Mathlib.Data.Set.Lattice
import Mathlib.Order.CompletePartialOrder
import Mathlib.Tactic.Common

/-!
Rules for loops written as folds whose body may fail: what every iteration
keeps, what the iterations add up to, and when none of them fails.
-/
namespace FoldRules
variable {α σ : Type}

theorem bind_some {α β : Type} {x : Option α} {f : α → Option β} {b : β}
    (h : (x >>= f) = some b) : ∃ a, x = some a ∧ f a = some b := by
  cases x with
  | none => simp at h
  | some a => exact ⟨a, rfl, h⟩

theorem foldlM_keeps {f : σ → α → Option σ} {P : σ → Prop} {l : List α}
    (step : ∀ x ∈ l, ∀ s s', f s x = some s' → P s → P s') {s s' : σ}
    (run : l.foldlM f s = some s') (start : P s) : P s' := by
  induction l generalizing s with
  | nil =>
    have same : s = s' := by simpa using run
    exact same ▸ start
  | cons x l ih =>
    rw [List.foldlM_cons] at run
    obtain ⟨middle, first, rest⟩ := bind_some run
    have next := step x (by simp) s middle first start
    exact ih (fun y hy => step y (by simp [hy])) rest next

/-- If every iteration adds one disjunct to a fact, the loop adds one for each element. -/
theorem foldlM_adds {f : σ → α → Option σ} {R : σ → Prop} {E : α → Prop} {l : List α}
    (step : ∀ x ∈ l, ∀ s s', f s x = some s' → (R s' ↔ R s ∨ E x)) {s s' : σ}
    (run : l.foldlM f s = some s') : R s' ↔ R s ∨ ∃ x ∈ l, E x := by
  induction l generalizing s with
  | nil =>
    have same : s = s' := by simpa using run
    simp [same]
  | cons x l ih =>
    rw [List.foldlM_cons] at run
    obtain ⟨middle, first, rest⟩ := bind_some run
    rw [ih (fun y hy => step y (by simp [hy])) rest, step x (by simp) s middle first, or_assoc]
    simp

theorem foldlM_visits {f : σ → α → Option σ} {P : σ → Prop} {l : List α}
    (step : ∀ x ∈ l, ∀ s s', f s x = some s' → P s → P s') {s s' : σ}
    (run : l.foldlM f s = some s') (start : P s) {x : α} (hx : x ∈ l) :
    ∃ t t', P t ∧ f t x = some t' := by
  induction l generalizing s with
  | nil => simp at hx
  | cons y l ih =>
    rw [List.foldlM_cons] at run
    obtain ⟨middle, first, rest⟩ := bind_some run
    rcases List.mem_cons.mp hx with same | later
    · exact ⟨s, middle, start, same ▸ first⟩
    · have next := step y (by simp) s middle first start
      exact ih (fun z hz => step z (by simp [hz])) rest next later

theorem foldlM_each {f : σ → α → Option σ} {l : List α} {s s' : σ}
    (run : l.foldlM f s = some s') {x : α} (hx : x ∈ l) : ∃ t t', f t x = some t' := by
  obtain ⟨t, t', _, one⟩ := foldlM_visits (P := fun _ => True)
    (fun _ _ _ _ _ _ => trivial) run trivial hx
  exact ⟨t, t', one⟩

theorem foldlM_establishes {f : σ → α → Option σ} {P : σ → Prop} {l : List α}
    (step : ∀ x ∈ l, ∀ s s', f s x = some s' → P s → P s') {x : α} (hx : x ∈ l)
    (visit : ∀ s s', f s x = some s' → P s') {s s' : σ} (run : l.foldlM f s = some s') : P s' := by
  induction l generalizing s with
  | nil => simp at hx
  | cons y l ih =>
    rw [List.foldlM_cons] at run
    obtain ⟨middle, first, rest⟩ := bind_some run
    have later := fun z (hz : z ∈ l) => step z (List.mem_cons_of_mem y hz)
    rcases List.mem_cons.mp hx with same | inTail
    · exact foldlM_keeps later rest (visit s middle (same ▸ first))
    · exact ih later inTail rest

theorem foldlM_total {f : σ → α → Option σ} {P : σ → Prop} {l : List α}
    (step : ∀ x ∈ l, ∀ s, P s → ∃ s', f s x = some s' ∧ P s') {s : σ} (start : P s) :
    ∃ s', l.foldlM f s = some s' ∧ P s' := by
  induction l generalizing s with
  | nil => exact ⟨s, rfl, start⟩
  | cons x l ih =>
    obtain ⟨middle, first, next⟩ := step x (by simp) s start
    obtain ⟨s', rest, done⟩ := ih (fun y hy => step y (by simp [hy])) next
    exact ⟨s', by rw [List.foldlM_cons, first]; exact rest, done⟩

/-- A loop comes through exactly if each element can be visited, where that does not
    depend on what the earlier visits have done. -/
theorem foldlM_total_iff {f : σ → α → Option σ} {P : σ → Prop} {Q : α → Prop} {l : List α}
    (visit : ∀ x ∈ l, ∀ s, P s → ((∃ s', f s x = some s') ↔ Q x))
    (step : ∀ x ∈ l, ∀ s s', f s x = some s' → P s → P s') {s : σ} (start : P s) :
    (∃ s', l.foldlM f s = some s') ↔ ∀ x ∈ l, Q x := by
  constructor
  · intro ⟨s', run⟩ x hx
    obtain ⟨t, t', kept, one⟩ := foldlM_visits step run start hx
    exact (visit x hx t kept).mp ⟨t', one⟩
  · intro all
    obtain ⟨s', run, _⟩ := foldlM_total (fun x hx t kept => by
      obtain ⟨t', one⟩ := (visit x hx t kept).mpr (all x hx)
      exact ⟨t', one, step x hx t t' one kept⟩) start
    exact ⟨s', run⟩

theorem foldlM_allocates [Preorder σ] {κ : Type} {f : σ → α → Option σ} {T : σ → Set κ}
    {N : α → Set κ} {D : α → σ → Prop} {l : List α} {s : σ}
    (step : ∀ x ∈ l, ∀ t, s ≤ t → Disjoint (T t) (N x) →
      ∃ t', f t x = some t' ∧ t ≤ t' ∧ T t' ⊆ T t ∪ N x ∧ D x t')
    (mono : ∀ x ∈ l, ∀ t t', t ≤ t' → D x t → D x t')
    (apart : l.Pairwise fun x y => Disjoint (N x) (N y))
    (free : ∀ x ∈ l, Disjoint (T s) (N x)) :
    ∃ s', l.foldlM f s = some s' ∧ s ≤ s' ∧ T s' ⊆ T s ∪ ⋃ x ∈ l, N x ∧
      ∀ x ∈ l, D x s' := by
  induction l generalizing s with
  | nil => exact ⟨s, rfl, le_refl s, by simp, by simp⟩
  | cons x l ih =>
    obtain ⟨others, apart⟩ := List.pairwise_cons.mp apart
    obtain ⟨middle, first, grown, keys, done⟩ := step x (by simp) s (le_refl s) (free x (by simp))
    obtain ⟨s', rest, more, allKeys, allD⟩ := ih (s := middle)
      (fun y hy t later => step y (by simp [hy]) t (grown.trans later))
      (fun y hy => mono y (by simp [hy])) apart
      (fun y hy => by
        apply Set.disjoint_of_subset_left keys
        rw [Set.disjoint_union_left]
        exact ⟨free y (by simp [hy]), others y hy⟩)
    refine ⟨s', by rw [List.foldlM_cons, first]; exact rest, grown.trans more, ?_, ?_⟩
    · intro k owned
      rcases allKeys owned with before | later
      · rcases keys before with before | here
        · exact Or.inl before
        · exact Or.inr (by simp [here])
      · simp only [Set.mem_iUnion, exists_prop] at later
        obtain ⟨y, hy, there⟩ := later
        exact Or.inr (by simp only [Set.mem_iUnion, exists_prop]; exact ⟨y, by simp [hy], there⟩)
    · intro y hy
      rcases List.mem_cons.mp hy with same | later
      · exact same ▸ mono x (by simp) middle s' more done
      · exact allD y later

theorem foldl_keeps {f : σ → α → σ} {P : σ → Prop} {l : List α}
    (step : ∀ x ∈ l, ∀ s, P s → P (f s x)) {s : σ} (start : P s) : P (l.foldl f s) := by
  induction l generalizing s with
  | nil => exact start
  | cons x l ih => exact ih (fun y hy => step y (by simp [hy])) (step x (by simp) s start)

theorem foldl_adds {f : σ → α → σ} {R : σ → Prop} {E : α → Prop} {l : List α}
    (step : ∀ x ∈ l, ∀ s, R (f s x) ↔ R s ∨ E x) (s : σ) :
    R (l.foldl f s) ↔ R s ∨ ∃ x ∈ l, E x := by
  induction l generalizing s with
  | nil => simp
  | cons x l ih =>
    rw [List.foldl_cons, ih (fun y hy => step y (by simp [hy])), step x (by simp), or_assoc]
    simp

theorem foldl_throughout_iff {f : σ → α → σ} {P : σ → Prop} {Q : σ → α → Prop}
    (step : ∀ s x, P s → (P (f s x) ↔ Q s x)) {s : σ} (start : P s) {l : List α} :
    (∀ before rest, l = before ++ rest → P (before.foldl f s)) ↔
      ∀ before x rest, l = before ++ x :: rest → Q (before.foldl f s) x := by
  constructor
  · intro kept before x rest split
    have here := kept before (x :: rest) split
    have next := kept (before ++ [x]) rest (by simp [split])
    rw [List.foldl_append] at next
    exact (step _ x here).mp next
  · intro allowed before
    induction before generalizing s l with
    | nil => exact fun _ _ => start
    | cons x before ih =>
      intro rest split
      have next := (step s x start).mpr (allowed [] x (before ++ rest) split)
      apply ih next (l := before ++ rest) _ rest rfl
      exact fun earlier y later more => allowed (x :: earlier) y later (by simp [split, more])

end FoldRules
