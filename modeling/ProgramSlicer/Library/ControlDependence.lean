import Mathlib.Logic.Relation
import Mathlib.Tactic.Common

/-!
Post-dominance and control dependence over an arbitrary edge relation.
A vertex post-dominates another when every path from the latter to an exit
contains it; the negation, that some path misses it, is what inductions are on.
-/
namespace ControlDependence
open Relation
variable {B : Type} (Edge : B → B → Prop)

def Exit (b : B) : Prop := ∀ c, ¬ Edge b c

inductive ReachesExit : B → Prop where
  | exit {b : B} (stop : Exit Edge b) : ReachesExit b
  | step {b c : B} (edge : Edge b c) (tail : ReachesExit c) : ReachesExit b

/-- Some path from here to an exit does not contain `d`. -/
inductive Misses (d : B) : B → Prop where
  | exit {b : B} (other : b ≠ d) (stop : Exit Edge b) : Misses d b
  | step {b c : B} (other : b ≠ d) (edge : Edge b c) (tail : Misses d c) : Misses d b

def PostDominates (d b : B) : Prop := ¬ Misses Edge d b
def StrictlyPostDominates (d b : B) : Prop := PostDominates Edge d b ∧ d ≠ b
def ImmediatelyPostDominates (d b : B) : Prop :=
  StrictlyPostDominates Edge d b ∧ ∀ e, StrictlyPostDominates Edge e b → PostDominates Edge e d

/-- `n` is control dependent on `b`: some successor of `b` is post-dominated by
    `n`, while `n` does not strictly post-dominate `b`. -/
def DependsOn (n b : B) : Prop :=
  ∃ s, Edge b s ∧ PostDominates Edge n s ∧ ¬ StrictlyPostDominates Edge n b

variable {Edge}

theorem misses_ne {d b : B} (miss : Misses Edge d b) : b ≠ d := by
  cases miss <;> assumption

theorem postdominates_refl (b : B) : PostDominates Edge b b :=
  fun miss => misses_ne miss rfl

theorem postdominates_next {d b c : B} (dom : PostDominates Edge d b) (other : b ≠ d)
    (edge : Edge b c) : PostDominates Edge d c :=
  fun miss => dom (.step other edge miss)

theorem misses_through {a b c : B} (miss : Misses Edge a c) :
    Misses Edge b c ∨ Misses Edge a b := by
  induction miss with
  | @exit x other stop =>
    by_cases same : x = b
    · exact Or.inr (same ▸ .exit other stop)
    · exact Or.inl (.exit same stop)
  | @step x y other edge tail ih =>
    by_cases same : x = b
    · exact Or.inr (same ▸ .step other edge tail)
    · exact ih.imp_left (.step same edge)

theorem postdominates_trans {a b c : B} (ab : PostDominates Edge a b)
    (bc : PostDominates Edge b c) : PostDominates Edge a c :=
  fun miss => (misses_through miss).elim bc ab

theorem last_of_two {a b c : B} (distinct : a ≠ b) (path : ReachesExit Edge c) :
    (Misses Edge a c ∧ Misses Edge b c) ∨ Misses Edge b a ∨ Misses Edge a b := by
  induction path with
  | @exit x stop =>
    by_cases atA : x = a
    · exact Or.inr (Or.inl (atA ▸ .exit (atA ▸ distinct) stop))
    · by_cases atB : x = b
      · exact Or.inr (Or.inr (atB ▸ .exit (atB ▸ distinct.symm) stop))
      · exact Or.inl ⟨.exit atA stop, .exit atB stop⟩
  | @step x y edge _ ih =>
    rcases ih with ⟨missA, missB⟩ | done
    · by_cases atA : x = a
      · exact Or.inr (Or.inl (atA ▸ .step (atA ▸ distinct) edge missB))
      · by_cases atB : x = b
        · exact Or.inr (Or.inr (atB ▸ .step (atB ▸ distinct.symm) edge missA))
        · exact Or.inl ⟨.step atA edge missA, .step atB edge missB⟩
    · exact Or.inr done

theorem postdominates_antisymm {a b : B} (path : ReachesExit Edge b)
    (ab : PostDominates Edge a b) (ba : PostDominates Edge b a) : a = b := by
  by_contra distinct
  rcases last_of_two distinct path with ⟨missA, _⟩ | miss | miss
  · exact ab missA
  · exact ba miss
  · exact ab miss

theorem strict_through_immediate {a b d : B} (path : ReachesExit Edge b)
    (imm : ImmediatelyPostDominates Edge d b) :
    StrictlyPostDominates Edge a b ↔ PostDominates Edge a d := by
  constructor
  · exact imm.2 a
  · intro ad
    refine ⟨postdominates_trans ad imm.1.1, fun same => ?_⟩
    exact imm.1.2 (postdominates_antisymm path imm.1.1 (same ▸ ad))

theorem reaches_of_postdominates {d b : B} (path : ReachesExit Edge b)
    (dom : PostDominates Edge d b) : ReflTransGen Edge b d := by
  induction path with
  | @exit x stop =>
    by_cases same : x = d
    · exact same ▸ .refl
    · exact absurd (.exit same stop) dom
  | @step x y edge _ ih =>
    by_cases same : x = d
    · exact same ▸ .refl
    · exact .head edge (ih (postdominates_next dom same edge))

theorem path_of_dependence (exits : ∀ {x y}, Edge x y → ReachesExit Edge y) {n b : B}
    (dep : DependsOn Edge n b) : TransGen Edge b n := by
  obtain ⟨s, edge, dom, _⟩ := dep
  exact .head' edge (reaches_of_postdominates (exits edge) dom)

theorem dependence_on_path {r z : B} (path : TransGen Edge r z)
    (dom : PostDominates Edge r z) : ∃ x, DependsOn Edge r x := by
  induction path with
  | single edge => exact ⟨r, _, edge, dom, fun strict => strict.2 rfl⟩
  | @tail y z _ edge ih =>
    by_cases strict : StrictlyPostDominates Edge r y
    · exact ih strict.1
    · exact ⟨y, z, edge, dom, strict⟩

theorem cycle_has_dependence {r : B} (cycle : TransGen Edge r r) : ∃ x, DependsOn Edge r x :=
  dependence_on_path cycle (postdominates_refl r)

inductive ReachedWithout (Edge : B → B → Prop) (first b : B) : B → Prop where
  | first (other : first ≠ b) : ReachedWithout Edge first b first
  | step {x y : B} (before : ReachedWithout Edge first b x) (edge : Edge x y) (other : y ≠ b) :
      ReachedWithout Edge first b y

theorem reached_or_through {first b x : B} (path : ReflTransGen Edge first x) :
    ReachedWithout Edge first b x ∨ ReflTransGen Edge b x := by
  induction path with
  | refl =>
    by_cases same : first = b
    · exact Or.inr (same ▸ .refl)
    · exact Or.inl (.first same)
  | @tail y z _ edge ih =>
    by_cases same : z = b
    · exact Or.inr (same ▸ .refl)
    · exact ih.imp (fun before => .step before edge same) (fun path => path.tail edge)

theorem reachedWithout_ne {first b x : B} (path : ReachedWithout Edge first b x) : x ≠ b := by
  cases path <;> assumption

theorem postdominates_along {first b x : B} (dom : PostDominates Edge b first)
    (path : ReachedWithout Edge first b x) : PostDominates Edge b x := by
  induction path with
  | first => exact dom
  | step before edge _ ih => exact postdominates_next ih (reachedWithout_ne before) edge

theorem misses_before {first b s y : B} (path : ReachesExit Edge s)
    (before : ReachedWithout Edge first b s) (dom : PostDominates Edge b s)
    (late : ¬ ReachedWithout Edge first b y) (miss : Misses Edge y b) : Misses Edge y s := by
  have other : ∀ {x}, ReachedWithout Edge first b x → x ≠ y := fun h same => late (same ▸ h)
  induction path with
  | exit stop => exact absurd (.exit (reachedWithout_ne before) stop) dom
  | @step x z edge _ ih =>
    refine .step (other before) edge ?_
    by_cases atB : z = b
    · exact atB ▸ miss
    · exact ih (.step before edge atB) (postdominates_next dom (reachedWithout_ne before) edge)

theorem dependence_stays_behind {first b x y : B}
    (exits : ∀ {x y}, Edge x y → ReachesExit Edge y) (dom : PostDominates Edge b first)
    (dep : DependsOn Edge y x) (late : ¬ ReachedWithout Edge first b y) :
    ¬ ReachedWithout Edge first b x := by
  intro early
  obtain ⟨s, edge, yDomS, notStrict⟩ := dep
  have bDomX := postdominates_along dom early
  have yDomB : PostDominates Edge y b := by
    intro miss
    by_cases atB : s = b
    · exact yDomS (atB ▸ miss)
    · have before := ReachedWithout.step early edge atB
      exact yDomS (misses_before (exits edge) before (postdominates_along dom before) late miss)
  refine notStrict ⟨postdominates_trans yDomB bDomX, fun same => late (same ▸ early)⟩

theorem free_of_no_predecessor {n : B} (exits : ∀ {x y}, Edge x y → ReachesExit Edge y)
    (alone : ∀ x, ¬ Edge x n) (x : B) : ¬ DependsOn Edge n x := by
  rintro ⟨s, edge, dom, _⟩
  rcases ReflTransGen.cases_tail (reaches_of_postdominates (exits edge) dom) with here | ⟨y, _, last⟩
  · exact alone x (here ▸ edge)
  · exact alone y last

/-- Some vertex without dependences leads here along dependences. -/
def Grounded (Edge : B → B → Prop) (b : B) : Prop :=
  ∃ r, (∀ x, ¬ DependsOn Edge r x) ∧ ReflTransGen (fun x y => DependsOn Edge y x) r b

theorem grounded_step {x y : B} (ground : Grounded Edge x) (dep : DependsOn Edge y x) :
    Grounded Edge y := by
  obtain ⟨r, free, path⟩ := ground
  exact ⟨r, free, path.tail dep⟩

theorem not_grounded_of_cycle {first b : B} (exits : ∀ {x y}, Edge x y → ReachesExit Edge y)
    (reach : ∀ {x y}, Edge x y → ReflTransGen Edge first x) (dom : PostDominates Edge b first)
    (cycle : TransGen Edge b b) : ¬ Grounded Edge b := by
  rintro ⟨r, free, path⟩
  have behind : ¬ ReachedWithout Edge first b r ∧ TransGen Edge r b ∧ ReflTransGen Edge b r := by
    clear free
    induction path using ReflTransGen.head_induction_on with
    | refl => exact ⟨fun early => reachedWithout_ne early rfl, cycle, .refl⟩
    | @head x y dep _ ih =>
      have late := dependence_stays_behind exits dom dep ih.1
      have back : ReflTransGen Edge b x := by
        obtain ⟨_, edge, _⟩ := dep
        exact (reached_or_through (reach edge)).resolve_left late
      exact ⟨late, (path_of_dependence exits dep).trans ih.2.1, back⟩
  obtain ⟨_, toB, fromB⟩ := behind
  exact (cycle_has_dependence (toB.trans_left fromB)).elim free

theorem free_of_acyclic {first b : B} (exits : ∀ {x y}, Edge x y → ReachesExit Edge y)
    (reach : ∀ {x y}, Edge x y → ReflTransGen Edge first x) (dom : PostDominates Edge b first)
    (acyclic : ¬ TransGen Edge b b) (x : B) : ¬ DependsOn Edge b x := by
  rintro ⟨s, edge, domS, notStrict⟩
  have back := reaches_of_postdominates (exits edge) domS
  rcases reached_or_through (b := b) (reach edge) with early | path
  · exact notStrict ⟨postdominates_along dom early, (reachedWithout_ne early).symm⟩
  · exact acyclic (TransGen.tail' path edge |>.trans_left back)

theorem grounded_along {first b : B}
    (free : ∀ b, ReflTransGen Edge first b → PostDominates Edge b first →
      ∀ x, ¬ DependsOn Edge b x)
    (path : ReflTransGen Edge first b) : Grounded Edge b := by
  -- along the path: what becomes post-dominating on the way depends on a grounded vertex
  have onPath : Grounded Edge b ∧ ∀ c, PostDominates Edge c b →
      ¬ PostDominates Edge c first → ∃ x, Grounded Edge x ∧ DependsOn Edge c x := by
    induction path with
    | refl =>
      exact ⟨⟨first, free first .refl (postdominates_refl first), .refl⟩,
        fun c dom notDom => absurd dom notDom⟩
    | @tail y z before edge ih =>
      have later : ∀ c, PostDominates Edge c z → ¬ PostDominates Edge c first →
          ∃ x, Grounded Edge x ∧ DependsOn Edge c x := by
        intro c dom notDom
        by_cases already : PostDominates Edge c y
        · exact ih.2 c already notDom
        · exact ⟨y, ih.1, z, edge, dom, fun strict => already strict.1⟩
      refine ⟨?_, later⟩
      by_cases always : PostDominates Edge z first
      · exact ⟨z, free z (before.tail edge) always, .refl⟩
      · obtain ⟨x, ground, dep⟩ := later z (postdominates_refl z) always
        exact grounded_step ground dep
  exact onPath.1

/-- Every reachable vertex is grounded exactly when no vertex that every run
    passes lies on a cycle. -/
theorem all_grounded_iff {first : B} (exits : ∀ {x y}, Edge x y → ReachesExit Edge y)
    (reach : ∀ {x y}, Edge x y → ReflTransGen Edge first x) :
    (∀ b, ReflTransGen Edge first b → Grounded Edge b) ↔
      ∀ b, ReflTransGen Edge first b → PostDominates Edge b first → ¬ TransGen Edge b b := by
  constructor
  · intro ground b path dom cycle
    exact not_grounded_of_cycle exits reach dom cycle (ground b path)
  · intro acyclic b path
    exact grounded_along
      (fun c path dom => free_of_acyclic exits reach dom (acyclic c path dom)) path

end ControlDependence
