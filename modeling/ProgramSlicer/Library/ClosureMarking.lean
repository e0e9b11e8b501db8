import Mathlib.Logic.Relation
import Mathlib.Data.Finset.Card
import Mathlib.Data.Finset.Dedup

/-!
Marking by a work set. A round takes any element of the work set, adds it to
the result and puts its unmarked neighbours into the work set. Nothing is said
about which element a round takes: an `Order` may choose by the round number
and by the whole work set.
-/
namespace ClosureMarking
variable {N : Type}

/-- The element a set yields next. `mem` is all that is known about it. -/
structure Order (N : Type) where
  first : Nat → List N → N
  mem : ∀ k n ns, first k (n :: ns) ∈ n :: ns

def Order.head [Inhabited N] : Order N where
  first _ ns := ns.headD default
  mem _ n ns := by simp

abbrev Step (next : N → List N) (a b : N) : Prop := b ∈ next a

def Reached (next : N → List N) (roots : List N) (n : N) : Prop :=
  ∃ r ∈ roots, Relation.ReflTransGen (Step next) r n

theorem root_reached {next : N → List N} {roots : List N} {r : N} (h : r ∈ roots) :
    Reached next roots r := ⟨r, h, .refl⟩

theorem reached_step {next : N → List N} {roots : List N} {a b : N}
    (h : Reached next roots a) (edge : b ∈ next a) : Reached next roots b := by
  obtain ⟨r, hr, path⟩ := h
  exact ⟨r, hr, path.tail edge⟩

theorem reached_least {next : N → List N} {roots : List N} (keep : N → Prop)
    (include_roots : ∀ r ∈ roots, keep r) (closed : ∀ a, keep a → ∀ b ∈ next a, keep b)
    {n : N} (h : Reached next roots n) : keep n := by
  obtain ⟨r, hr, path⟩ := h
  induction path with
  | refl => exact include_roots r hr
  | tail _ edge ih => exact closed _ ih _ edge

variable [DecidableEq N]

def mark (ord : Order N) (next : N → List N) : Nat → List N → List N → Option (List N)
  | _, result, [] => some result
  | 0, _, _ :: _ => none
  | k + 1, result, n :: ns =>
      let node := ord.first k (n :: ns)
      let result := result.insert node
      let work := (n :: ns).filter (· ≠ node)
      mark ord next k result (work ++ (next node).filter (· ∉ result))

/-- Marked nodes that have left the work set have only marked or waiting neighbours. -/
def Settled (next : N → List N) (result work : List N) : Prop :=
  ∀ a ∈ result, a ∉ work → ∀ b ∈ next a, b ∈ result ∨ b ∈ work

theorem round_settled {next : N → List N} {result work : List N}
    (settled : Settled next result work) (node : N) :
    Settled next (result.insert node)
      (work.filter (· ≠ node) ++ (next node).filter (· ∉ result.insert node)) := by
  intro a ha hw b hb
  simp only [List.mem_append, List.mem_filter, decide_eq_true_eq, ne_eq, List.mem_insert_iff,
    not_or, not_and, not_not] at ha hw ⊢
  by_cases same : a = node
  · subst same
    by_cases known : b = a ∨ b ∈ result
    · exact Or.inl known
    · exact Or.inr (Or.inr ⟨hb, not_or.mp known⟩)
  · have old : a ∈ result := ha.resolve_left same
    have off : a ∉ work := fun inWork => same (hw.1 inWork)
    rcases settled a old off b hb with done | waiting
    · exact Or.inl (Or.inr done)
    · by_cases taken : b = node
      · exact Or.inl (Or.inl taken)
      · exact Or.inr (Or.inl ⟨waiting, taken⟩)

theorem mark_contains {ord : Order N} {next : N → List N} {k : Nat} {result work final : List N}
    (run : mark ord next k result work = some final) :
    (∀ a ∈ result, a ∈ final) ∧ (∀ a ∈ work, a ∈ final) := by
  induction k generalizing result work with
  | zero =>
    cases work with
    | nil => simp only [mark, Option.some.injEq] at run; subst run; simp
    | cons n ns => simp [mark] at run
  | succ k ih =>
    cases work with
    | nil => simp only [mark, Option.some.injEq] at run; subst run; simp
    | cons n ns =>
      obtain ⟨fromResult, fromWork⟩ := ih run
      refine ⟨fun a ha => fromResult a (List.mem_insert_of_mem ha), fun a ha => ?_⟩
      by_cases taken : a = ord.first k (n :: ns)
      · exact fromResult a (by simp [taken])
      · exact fromWork a (List.mem_append_left _ (by simpa [taken] using ha))

theorem mark_closed {ord : Order N} {next : N → List N} {k : Nat} {result work final : List N}
    (settled : Settled next result work) (run : mark ord next k result work = some final) :
    ∀ a ∈ final, ∀ b ∈ next a, b ∈ final := by
  induction k generalizing result work with
  | zero =>
    cases work with
    | nil =>
      simp only [mark, Option.some.injEq] at run
      subst run
      intro a ha b hb
      simpa using settled a ha (by simp) b hb
    | cons n ns => simp [mark] at run
  | succ k ih =>
    cases work with
    | nil =>
      simp only [mark, Option.some.injEq] at run
      subst run
      intro a ha b hb
      simpa using settled a ha (by simp) b hb
    | cons n ns => exact ih (round_settled settled _) run

theorem mark_reached {ord : Order N} {next : N → List N} {k : Nat}
    {roots result work final : List N} (hr : ∀ a ∈ result, Reached next roots a)
    (hw : ∀ a ∈ work, Reached next roots a) (run : mark ord next k result work = some final) :
    ∀ a ∈ final, Reached next roots a := by
  induction k generalizing result work with
  | zero =>
    cases work with
    | nil => simp only [mark, Option.some.injEq] at run; subst run; exact hr
    | cons n ns => simp [mark] at run
  | succ k ih =>
    cases work with
    | nil => simp only [mark, Option.some.injEq] at run; subst run; exact hr
    | cons n ns =>
      have node := hw _ (ord.mem k n ns)
      refine ih ?_ ?_ run
      · intro a ha
        rcases List.mem_insert_iff.mp ha with taken | old
        · exact taken ▸ node
        · exact hr a old
      · intro a ha
        rcases List.mem_append.mp ha with old | fresh
        · exact hw a (List.mem_filter.mp old).1
        · exact reached_step node (List.mem_filter.mp fresh).1

/-- What is still to do inside a finite carrier: the unmarked elements, and the
    marked ones that wait for another visit. Every round lowers it. -/
def pending (carrier : Finset N) (result work : List N) : Nat :=
  (carrier.filter (· ∉ result)).card + (carrier.filter fun n => n ∈ result ∧ n ∈ work).card

theorem pending_positive {carrier : Finset N} (result : List N) {work : List N} {n : N}
    (inside : n ∈ carrier) (waiting : n ∈ work) : 0 < pending carrier result work := by
  unfold pending
  by_cases known : n ∈ result
  · have : 0 < (carrier.filter fun n => n ∈ result ∧ n ∈ work).card :=
      Finset.card_pos.mpr ⟨n, by simp [inside, known, waiting]⟩
    omega
  · have : 0 < (carrier.filter (· ∉ result)).card :=
      Finset.card_pos.mpr ⟨n, by simp [inside, known]⟩
    omega

theorem round_lowers_pending {carrier : Finset N} {work : List N} {node : N}
    (result : List N) (next : N → List N) (inside : node ∈ carrier) (waiting : node ∈ work) :
    pending carrier (result.insert node)
      (work.filter (· ≠ node) ++ (next node).filter (· ∉ result.insert node)) <
        pending carrier result work := by
  have revisits : (carrier.filter fun n => n ∈ result.insert node ∧
      n ∈ work.filter (· ≠ node) ++ (next node).filter (· ∉ result.insert node)) ⊆
      (carrier.filter fun n => n ∈ result ∧ n ∈ work).erase node := by
    intro n hn
    simp only [Finset.mem_filter, List.mem_insert_iff, List.mem_append, List.mem_filter,
      decide_eq_true_eq, Finset.mem_erase] at hn ⊢
    grind
  have unmarked : (carrier.filter (· ∉ result.insert node)) ⊆
      (carrier.filter (· ∉ result)).erase node := by
    intro n hn
    simp only [Finset.mem_filter, List.mem_insert_iff, not_or, Finset.mem_erase] at hn ⊢
    exact ⟨hn.2.1, hn.1, hn.2.2⟩
  have fewerRevisits := Finset.card_le_card revisits
  have fewerUnmarked := Finset.card_le_card unmarked
  unfold pending
  by_cases known : node ∈ result
  · have inRevisits : node ∈ carrier.filter fun n => n ∈ result ∧ n ∈ work := by
      simp [inside, known, waiting]
    have drop := Finset.card_erase_lt_of_mem inRevisits
    have keep := Finset.card_erase_le (s := carrier.filter (· ∉ result)) (a := node)
    omega
  · have inUnmarked : node ∈ carrier.filter (· ∉ result) := by simp [inside, known]
    have drop := Finset.card_erase_lt_of_mem inUnmarked
    have keep := Finset.card_erase_le
      (s := carrier.filter fun n => n ∈ result ∧ n ∈ work) (a := node)
    omega

theorem mark_finishes {ord : Order N} {next : N → List N} (carrier : Finset N)
    (closed : ∀ a ∈ carrier, ∀ b ∈ next a, b ∈ carrier) {k : Nat} {result work : List N}
    (inside : ∀ a ∈ work, a ∈ carrier) (budget : pending carrier result work ≤ k) :
    ∃ final, mark ord next k result work = some final := by
  induction k generalizing result work with
  | zero =>
    cases work with
    | nil => exact ⟨result, rfl⟩
    | cons n ns =>
      have first : n ∈ n :: ns := List.mem_cons_self ..
      have := pending_positive result (inside n first) first
      omega
  | succ k ih =>
    cases work with
    | nil => exact ⟨result, rfl⟩
    | cons n ns =>
      have mem := ord.mem k n ns
      have nodeIn := inside _ mem
      have lower := round_lowers_pending result next nodeIn mem
      refine ih ?_ (by omega)
      intro a ha
      rcases List.mem_append.mp ha with old | fresh
      · exact inside a (List.mem_filter.mp old).1
      · exact closed _ nodeIn a (List.mem_filter.mp fresh).1

/-- A run that starts with the same set as result and as work set computes the closure. -/
theorem mark_iff_reached {ord : Order N} {next : N → List N} {k : Nat} {roots final : List N}
    (run : mark ord next k roots roots = some final) (n : N) :
    n ∈ final ↔ Reached next roots n := by
  have settled : Settled next roots roots := fun _ ha off => absurd ha off
  constructor
  · exact mark_reached (fun a ha => root_reached ha) (fun a ha => root_reached ha) run n
  · exact reached_least (· ∈ final) (mark_contains run).1 (mark_closed settled run)

theorem pending_start_le (carrier roots : List N) :
    pending (carrier ++ roots).toFinset roots roots ≤ carrier.length + roots.length := by
  have split := Finset.card_filter_add_card_filter_not (s := (carrier ++ roots).toFinset)
    (· ∈ roots)
  have bound := (carrier ++ roots).toFinset_card_le
  simp only [pending, and_self, List.length_append] at *
  omega

theorem mark_total (ord : Order N) (next : N → List N) (carrier : List N)
    (closed : ∀ a, ∀ b ∈ next a, b ∈ carrier) (roots : List N) :
    ∃ final, mark ord next (carrier.length + roots.length) roots roots = some final := by
  refine mark_finishes (carrier ++ roots).toFinset ?_ ?_ (pending_start_le _ _)
  · intro a _ b hb
    simp [closed a b hb]
  · intro a ha
    simp [ha]

end ClosureMarking
