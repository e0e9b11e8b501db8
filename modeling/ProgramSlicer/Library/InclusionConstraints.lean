import Mathlib.Data.Set.Lattice
import Mathlib.Order.Bounds.Basic
import Mathlib.Tactic.Common

/-!
Inclusion constraints over an arbitrary type of nodes, their least solution,
and worklist solvers for them. A solver keeps a representative for every node,
the targets it knows and the edges it still has to follow; when every node is
discharged, what it keeps is the least solution.
-/
namespace InclusionConstraints
variable {V : Type}

/-- Which constraints `d = &s`, `d = s`, `d = *s` and `*d = s` there are. -/
structure System (V : Type) where
  addrOf : V → V → Prop
  copy : V → V → Prop
  load : V → V → Prop
  store : V → V → Prop

structure Solves (S : System V) (pts : V → Set V) : Prop where
  addrOf : ∀ d s, S.addrOf d s → s ∈ pts d
  copy : ∀ d s, S.copy d s → pts s ⊆ pts d
  load : ∀ d s, S.load d s → ∀ o ∈ pts s, pts o ⊆ pts d
  store : ∀ d s, S.store d s → ∀ o ∈ pts d, pts s ⊆ pts o

inductive Derives (S : System V) : V → V → Prop where
  | addrOf {d s : V} (c : S.addrOf d s) : Derives S d s
  | copy {d s o : V} (c : S.copy d s) (value : Derives S s o) : Derives S d o
  | load {d s p o : V} (c : S.load d s) (pointee : Derives S s p) (value : Derives S p o) :
      Derives S d o
  | store {d s p o : V} (c : S.store d s) (pointee : Derives S d p) (value : Derives S s o) :
      Derives S p o

theorem address_of_derives {S : System V} {n o : V} (derived : Derives S n o) :
    ∃ d, S.addrOf d o := by
  induction derived with
  | addrOf c => exact ⟨_, c⟩
  | copy _ _ ih => exact ih
  | load _ _ _ _ ih => exact ih
  | store _ _ _ _ ih => exact ih

def solution (S : System V) (n : V) : Set V := {o | Derives S n o}

@[simp] theorem mem_solution {S : System V} {n o : V} : o ∈ solution S n ↔ Derives S n o :=
  Iff.rfl

theorem solution_solves (S : System V) : Solves S (solution S) where
  addrOf _ _ c := .addrOf c
  copy _ _ c _ value := .copy c value
  load _ _ c _ pointee _ value := .load c pointee value
  store _ _ c _ pointee _ value := .store c pointee value

theorem solution_le {S : System V} {pts : V → Set V} (solves : Solves S pts) :
    solution S ≤ pts := by
  intro n o derived
  induction derived with
  | addrOf c => exact solves.addrOf _ _ c
  | copy c _ value => exact solves.copy _ _ c value
  | load c _ _ pointee value => exact solves.load _ _ c _ pointee value
  | store c _ _ pointee value => exact solves.store _ _ c _ pointee value

theorem solution_isLeast (S : System V) : IsLeast {pts | Solves S pts} (solution S) :=
  ⟨solution_solves S, fun _ solves => solution_le solves⟩

/-- The system in which nodes with one representative share one set. -/
def System.identify (S : System V) (rep : V → V) : System V :=
  { S with copy := fun d s => S.copy d s ∨ rep d = rep s }

theorem solves_identify {S : System V} {rep : V → V} {pts : V → Set V} :
    Solves (S.identify rep) pts ↔ Solves S pts ∧ ∀ a b, rep a = rep b → pts a = pts b := by
  constructor
  · intro solves
    constructor
    · exact ⟨solves.addrOf, fun d s c => solves.copy d s (.inl c), solves.load, solves.store⟩
    · intro a b same
      apply Set.Subset.antisymm
      · exact solves.copy b a (.inr same.symm)
      · exact solves.copy a b (.inr same)
  · rintro ⟨solves, shared⟩
    refine ⟨solves.addrOf, ?_, solves.load, solves.store⟩
    rintro d s (c | same)
    · exact solves.copy d s c
    · exact (shared d s same).symm.subset

theorem solution_identify {S : System V} {rep : V → V} {a b : V} (same : rep a = rep b) :
    solution (S.identify rep) a = solution (S.identify rep) b :=
  (solves_identify.mp (solution_solves _)).2 a b same

theorem identify_injective {S : System V} {rep : V → V} (inj : Function.Injective rep) :
    solution (S.identify rep) = solution S := by
  apply le_antisymm
  · apply solution_le
    exact solves_identify.mpr ⟨solution_solves S, fun a b same => by rw [inj same]⟩
  · apply solution_le
    exact (solves_identify.mp (solution_solves _)).1

/-- What a solver keeps. The edges lead to representatives. -/
structure Config (V : Type) where
  rep : V → V
  pts : V → Set V
  copyTo : V → Set V
  loadTo : V → Set V
  storeTo : V → Set V

namespace Config

/-- Everything known is true of the least solution. -/
structure Sound (S : System V) (c : Config V) : Prop where
  rep : ∀ n, solution S (c.rep n) = solution S n
  pts : ∀ r, c.pts r ⊆ solution S r
  copyTo : ∀ r, ∀ d ∈ c.copyTo r, solution S r ⊆ solution S d
  loadTo : ∀ r, ∀ d ∈ c.loadTo r, ∀ o ∈ solution S r, solution S o ⊆ solution S d
  storeTo : ∀ r, ∀ s ∈ c.storeTo r, ∀ o ∈ solution S r, solution S s ⊆ solution S o

/-- Every constraint is kept, at the representatives of its nodes. -/
structure Covers (S : System V) (c : Config V) : Prop where
  addrOf : ∀ d s, S.addrOf d s → s ∈ c.pts (c.rep d)
  copy : ∀ d s, S.copy d s → c.rep d ∈ c.copyTo (c.rep s) ∨ c.rep d = c.rep s
  load : ∀ d s, S.load d s → c.rep d ∈ c.loadTo (c.rep s)
  store : ∀ d s, S.store d s → c.rep s ∈ c.storeTo (c.rep d)

/-- Nothing more follows from what is known of `r`. -/
structure Discharged (c : Config V) (r : V) : Prop where
  copy : ∀ d ∈ c.copyTo r, c.pts r ⊆ c.pts d
  load : ∀ d ∈ c.loadTo r, ∀ o ∈ c.pts r, d ∈ c.copyTo (c.rep o)
  store : ∀ s ∈ c.storeTo r, ∀ o ∈ c.pts r, c.rep o ∈ c.copyTo s

theorem discharged_solves {S : System V} {c : Config V} (covers : c.Covers S)
    (discharged : ∀ r, c.Discharged r) : Solves S fun n => c.pts (c.rep n) where
  addrOf := covers.addrOf
  copy d s hc := by
    rcases covers.copy d s hc with edge | same
    · exact (discharged _).copy _ edge
    · rw [same]
  load d s hc o pointee :=
    (discharged _).copy _ ((discharged _).load _ (covers.load d s hc) o pointee)
  store d s hc o pointee :=
    (discharged _).copy _ ((discharged _).store _ (covers.store d s hc) o pointee)

theorem settled_solution {S : System V} {c : Config V} (sound : c.Sound S)
    (covers : c.Covers S) (discharged : ∀ r, c.Discharged r) (n : V) :
    c.pts (c.rep n) = solution S n := by
  apply Set.Subset.antisymm
  · rw [← sound.rep n]
    exact sound.pts (c.rep n)
  · exact solution_le (discharged_solves covers discharged) n

def Waits (c : Config V) (waiting : Set V) (r : V) : Prop := ∃ q ∈ waiting, c.rep q = r

def Settled (c : Config V) (waiting : Set V) : Prop :=
  ∀ r, c.Waits waiting r ∨ c.Discharged r

theorem settled_mono {c : Config V} {waiting more : Set V} (settled : c.Settled waiting)
    (sub : waiting ⊆ more) : c.Settled more := by
  intro r
  rcases settled r with ⟨q, hq, same⟩ | done
  · exact .inl ⟨q, sub hq, same⟩
  · exact .inr done

theorem settled_rep {c : Config V} {waiting : Set V} {q : V} (idem : c.rep (c.rep q) = c.rep q)
    (settled : c.Settled (insert q waiting)) : c.Settled (insert (c.rep q) waiting) := by
  intro r
  rcases settled r with ⟨p, hp, same⟩ | done
  · rcases Set.mem_insert_iff.mp hp with taken | waits
    · exact .inl ⟨c.rep q, Set.mem_insert _ _, by rw [idem, ← same, taken]⟩
    · exact .inl ⟨p, Set.mem_insert_of_mem _ waits, same⟩
  · exact .inr done

theorem settled_drop {c : Config V} {waiting : Set V} {q : V}
    (other : c.Waits waiting (c.rep q)) (settled : c.Settled (insert q waiting)) :
    c.Settled waiting := by
  intro r
  rcases settled r with ⟨p, hp, same⟩ | done
  · rcases Set.mem_insert_iff.mp hp with taken | waits
    · rw [taken] at same
      exact .inl (same ▸ other)
    · exact .inl ⟨p, waits, same⟩
  · exact .inr done

structure Grows (c c' : Config V) (changed : Set V) : Prop where
  rep : c'.rep = c.rep
  loadTo : c'.loadTo = c.loadTo
  storeTo : c'.storeTo = c.storeTo
  pts : ∀ x, c.pts x ⊆ c'.pts x
  copyTo : ∀ x, c.copyTo x ⊆ c'.copyTo x
  pts_same : ∀ x ∉ changed, c'.pts x ⊆ c.pts x
  copyTo_same : ∀ x ∉ changed, c'.copyTo x ⊆ c.copyTo x

theorem grows_refl (c : Config V) (changed : Set V) : c.Grows c changed :=
  ⟨rfl, rfl, rfl, fun _ _ h => h, fun _ _ h => h, fun _ _ _ h => h, fun _ _ _ h => h⟩

theorem grows_trans {a b c : Config V} {first second : Set V} (ab : a.Grows b first)
    (bc : b.Grows c second) (sub : first ⊆ second) : a.Grows c second where
  rep := bc.rep.trans ab.rep
  loadTo := bc.loadTo.trans ab.loadTo
  storeTo := bc.storeTo.trans ab.storeTo
  pts x := (ab.pts x).trans (bc.pts x)
  copyTo x := (ab.copyTo x).trans (bc.copyTo x)
  pts_same x same := (bc.pts_same x same).trans (ab.pts_same x fun h => same (sub h))
  copyTo_same x same := (bc.copyTo_same x same).trans (ab.copyTo_same x fun h => same (sub h))

theorem grows_covers {S : System V} {c c' : Config V} {changed : Set V}
    (grows : c.Grows c' changed) (covers : c.Covers S) : c'.Covers S where
  addrOf d s hc := by
    rw [grows.rep]
    exact grows.pts _ (covers.addrOf d s hc)
  copy d s hc := by
    rw [grows.rep]
    rcases covers.copy d s hc with edge | same
    · exact .inl (grows.copyTo _ edge)
    · exact .inr same
  load d s hc := by
    rw [grows.rep, grows.loadTo]
    exact covers.load d s hc
  store d s hc := by
    rw [grows.rep, grows.storeTo]
    exact covers.store d s hc

theorem grows_discharged {c c' : Config V} {changed : Set V} (grows : c.Grows c' changed) {x : V}
    (same : x ∉ changed) (done : c.Discharged x) : c'.Discharged x where
  copy d edge o known :=
    grows.pts d (done.copy d (grows.copyTo_same x same edge) (grows.pts_same x same known))
  load d edge o known := by
    rw [grows.loadTo] at edge
    rw [grows.rep]
    exact grows.copyTo _ (done.load d edge o (grows.pts_same x same known))
  store s edge o known := by
    rw [grows.storeTo] at edge
    rw [grows.rep]
    exact grows.copyTo _ (done.store s edge o (grows.pts_same x same known))

theorem grows_settled {c c' : Config V} {waiting waiting' : Set V} {q : V}
    (grows : c.Grows c' waiting') (settled : c.Settled (insert q waiting))
    (kept : waiting ⊆ waiting') (gone : ∀ x, c.rep x ≠ x → c'.Discharged x)
    (done : c'.Discharged (c.rep q)) : c'.Settled waiting' := by
  intro x
  by_cases root : c.rep x = x
  · by_cases changed : x ∈ waiting'
    · exact .inl ⟨x, changed, by rw [grows.rep, root]⟩
    · rcases settled x with ⟨y, hy, same⟩ | before
      · rcases Set.mem_insert_iff.mp hy with taken | waits
        · rw [← same, taken]
          exact .inr done
        · exact .inl ⟨y, kept waits, by rw [grows.rep, same]⟩
      · exact .inr (grows_discharged grows changed before)
  · exact .inr (gone x root)

def map (f : V → V) (c : Config V) : Config V where
  rep n := f (c.rep n)
  pts x := {o | ∃ m, f m = x ∧ o ∈ c.pts m}
  copyTo x := {d | ∃ m, f m = x ∧ ∃ e ∈ c.copyTo m, f e = d}
  loadTo x := {d | ∃ m, f m = x ∧ ∃ e ∈ c.loadTo m, f e = d}
  storeTo x := {d | ∃ m, f m = x ∧ ∃ e ∈ c.storeTo m, f e = d}

theorem map_map (f g : V → V) (c : Config V) : (c.map f).map g = c.map (g ∘ f) := by
  have edges : ∀ e : V → Set V, (fun x => {d | ∃ m, g m = x ∧
      ∃ y ∈ {y | ∃ k, f k = m ∧ ∃ z ∈ e k, f z = y}, g y = d}) =
      fun x => {d | ∃ m, g (f m) = x ∧ ∃ z ∈ e m, g (f z) = d} := by
    intro e
    funext x
    ext d
    simp only [Set.mem_ofPred_eq, ↓existsAndEq, true_and]
    grind
  have targets : (fun x => {o | ∃ m, g m = x ∧ o ∈ {o | ∃ k, f k = m ∧ o ∈ c.pts k}}) =
      fun x => {o | ∃ m, g (f m) = x ∧ o ∈ c.pts m} := by
    funext x
    ext o
    simp only [Set.mem_ofPred_eq, ↓existsAndEq, true_and]
  simp only [map, Function.comp_apply, edges, targets]

@[simp] theorem map_id (c : Config V) : c.map (fun n => n) = c := by
  cases c
  simp [map]

theorem map_covers {S : System V} {c : Config V} (f : V → V) (covers : c.Covers S) :
    (c.map f).Covers S where
  addrOf d s hc := ⟨_, rfl, covers.addrOf d s hc⟩
  copy d s hc := by
    rcases covers.copy d s hc with edge | same
    · exact .inl ⟨_, rfl, _, edge, rfl⟩
    · exact .inr (congrArg f same)
  load d s hc := ⟨_, rfl, _, covers.load d s hc, rfl⟩
  store d s hc := ⟨_, rfl, _, covers.store d s hc, rfl⟩

theorem map_sound {S : System V} {c : Config V} {f : V → V} (sound : c.Sound S)
    (equal : ∀ n, solution S (f n) = solution S n) : (c.map f).Sound S where
  rep n := (equal _).trans (sound.rep n)
  pts := by
    rintro _ o ⟨m, rfl, known⟩
    rw [equal]
    exact sound.pts m known
  copyTo := by
    rintro _ _ ⟨m, rfl, e, edge, rfl⟩
    rw [equal, equal]
    exact sound.copyTo m e edge
  loadTo := by
    rintro _ _ ⟨m, rfl, e, edge, rfl⟩ o pointee
    rw [equal] at pointee ⊢
    exact sound.loadTo m e edge o pointee
  storeTo := by
    rintro _ _ ⟨m, rfl, e, edge, rfl⟩ o pointee
    rw [equal] at pointee ⊢
    exact sound.storeTo m e edge o pointee

theorem map_discharged {c : Config V} {f : V → V} {x : V}
    (each : ∀ m, f m = x → c.Discharged m)
    (equal : ∀ m m', f m = x → f m' = x → c.pts m' ⊆ c.pts m) : (c.map f).Discharged x where
  copy := by
    rintro _ ⟨m, hm, e, edge, rfl⟩ o ⟨m', hm', known⟩
    exact ⟨e, rfl, (each m hm).copy e edge (equal m m' hm hm' known)⟩
  load := by
    rintro _ ⟨m, hm, e, edge, rfl⟩ o ⟨m', hm', known⟩
    exact ⟨_, rfl, e, (each m hm).load e edge o (equal m m' hm hm' known), rfl⟩
  store := by
    rintro _ ⟨m, hm, e, edge, rfl⟩ o ⟨m', hm', known⟩
    exact ⟨e, rfl, _, (each m hm).store e edge o (equal m m' hm hm' known), rfl⟩

end Config

def into [DecidableEq V] (r : V) (M : List V) (x : V) : V := if x ∈ M then r else x

theorem into_append [DecidableEq V] (r : V) (M N : List V) :
    into r N ∘ into r M = into r (M ++ N) := by
  funext x
  simp only [into, Function.comp_apply, List.mem_append]
  grind

theorem into_cons_self [DecidableEq V] {r : V} {M : List V} : into r (r :: M) = into r M := by
  funext x
  simp only [into, List.mem_cons]
  grind

namespace Config
variable [DecidableEq V] {c : Config V} {waiting : Set V} {r : V} {M : List V}

theorem map_waits {m x : V} (waits : c.Waits waiting m) (here : into r M m = x) :
    (c.map (into r M)).Waits waiting x := by
  obtain ⟨q, hq, same⟩ := waits
  exact ⟨q, hq, by simp only [Config.map, same, here]⟩

theorem map_elsewhere (settled : c.Settled waiting) {x : V} (other : x ≠ r) :
    (c.map (into r M)).Waits waiting x ∨ (c.map (into r M)).Discharged x := by
  have fibre : ∀ m, into r M m = x → m = x := by
    intro m here
    unfold into at here
    split at here
    · exact absurd here.symm other
    · exact here
  by_cases waits : ∃ m, into r M m = x ∧ c.Waits waiting m
  · obtain ⟨m, here, hm⟩ := waits
    exact .inl (map_waits hm here)
  · right
    apply map_discharged
    · intro m here
      rcases settled m with waits' | done
      · exact absurd ⟨m, here, waits'⟩ waits
      · exact done
    · intro m m' here here'
      rw [fibre m here, fibre m' here']

theorem map_settled_done (settled : c.Settled waiting)
    (done : (c.map (into r M)).Waits waiting r ∨ (c.map (into r M)).Discharged r) :
    (c.map (into r M)).Settled waiting := by
  intro x
  by_cases here : x = r
  · rw [here]
    exact done
  · exact map_elsewhere settled here

theorem map_settled_insert (settled : c.Settled waiting) (root : c.rep r = r) :
    (c.map (into r M)).Settled (insert r waiting) := by
  intro x
  by_cases here : x = r
  · left
    refine ⟨r, Set.mem_insert r waiting, ?_⟩
    simp only [Config.map, root, into, here]
    split <;> rfl
  · rcases map_elsewhere (M := M) settled here with ⟨q, hq, same⟩ | done
    · exact .inl ⟨q, Set.mem_insert_of_mem r hq, same⟩
    · exact .inr done

/-- Merging a set of nodes, one of which still waits or all of which are
    discharged with the same targets, keeps a configuration settled. -/
theorem map_settled (settled : c.Settled waiting) (member : r ∈ M)
    (equal : (∃ m ∈ M, c.Waits waiting m) ∨ ∀ m ∈ M, ∀ m' ∈ M, c.pts m' ⊆ c.pts m) :
    (c.map (into r M)).Settled waiting := by
  apply map_settled_done settled
  have inside : ∀ m, into r M m = r → m ∈ M := by
    intro m here
    unfold into at here
    split at here
    · assumption
    · exact here ▸ member
  by_cases waits : ∃ m ∈ M, c.Waits waiting m
  · obtain ⟨m, hm, waits⟩ := waits
    exact .inl (map_waits waits (by simp [into, hm]))
  · right
    apply map_discharged
    · intro m here
      rcases settled m with waits' | done
      · exact absurd ⟨m, inside m here, waits'⟩ waits
      · exact done
    · intro m m' here here'
      exact (equal.resolve_left waits) m (inside m here) m' (inside m' here')

end Config

end InclusionConstraints
