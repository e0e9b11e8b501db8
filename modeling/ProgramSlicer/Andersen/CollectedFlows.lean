import ProgramSlicer.Andersen.ModuleFlows
import ProgramSlicer.Library.SystemNames

/-!
The constraints that are collected are those of the module, up to the numbers of the
nodes. Each function of the pass adds its own flows to what there was; the nodes of the
values, which it asks for, only change in the loops that create them.
-/
namespace ProgramSlicer.Andersen
open FoldRules InclusionConstraints AndersNodeFactory

namespace Collection
variable {A A' B : Collection} {flows added more : Set Flow}

def indexOf (A : Collection) : Place → Option NodeIndex
  | .universalPtr => some UniversalPtrIndex
  | .universalObject => some UniversalObjIndex
  | .nullPtr => some NullPtrIndex
  | .nullObject => some NullObjectIndex
  | .slot k => A.node k
  | .between _ _ => none

/-- `naming` says what each node stands for, and read by it the constraints are the flows.
    Only temporaries may stand for the same. -/
structure Rendered (A : Collection) (naming : NodeIndex → Option Place) (flows : Set Flow) :
    Prop where
  reserved : 4 ≤ A.nodeFactory.numNodes
  named : ∀ p n, A.indexOf p = some n → naming n = some p
  owned : ∀ n p, naming n = some p → A.indexOf p = some n ∨ ∃ dest src, p = .between dest src
  below : ∀ n p, naming n = some p → n < A.nodeFactory.numNodes
  forth : ∀ c ∈ A.constraints, ∃ p q, naming c.dest = some p ∧ naming c.src = some q ∧
    ⟨c.type, p, q⟩ ∈ flows
  back : ∀ f ∈ flows, ∀ n, naming n = some f.dest →
    ∃ m, naming m = some f.src ∧ ⟨f.type, n, m⟩ ∈ A.constraints
  used : ∀ f ∈ flows, ∃ n, naming n = some f.dest
  object : ∀ f ∈ flows, f.type = .ADDR_OF → ∃ n, A.indexOf f.src = some n
  loaded : ∀ f ∈ flows, ∀ p q, f.dest = .between p q → f = ⟨.LOAD, .between p q, q⟩
  temporary : ∀ n p q, naming n = some (.between p q) → ⟨.LOAD, .between p q, q⟩ ∈ flows

def Renders (A : Collection) (flows : Set Flow) : Prop := ∃ naming, A.Rendered naming flows

theorem indexOf_congr (same : A'.node = A.node) (p : Place) : A'.indexOf p = A.indexOf p := by
  cases p with
  | slot k => exact congrFun same k
  | _ => rfl

namespace Rendered
variable {naming : NodeIndex → Option Place}

theorem index_unique (rendered : A.Rendered naming flows) {p : Place} {n m : NodeIndex}
    (found : A.indexOf p = some n) (stands : naming m = some p) : m = n := by
  rcases rendered.owned m p stands with here | ⟨dest, src, rfl⟩
  · exact Option.some.inj (here.symm.trans found)
  · cases found

theorem emplace (rendered : A.Rendered naming flows) {type : ConstraintType} {p q : Place}
    {d s : NodeIndex} (isDest : A.indexOf p = some d) (isSrc : A.indexOf q = some s) :
    (A.emplace type d s).Rendered naming (flows ∪ {⟨type, p, q⟩}) where
  reserved := rendered.reserved
  named p' n found := rendered.named p' n (by rwa [indexOf_congr (node_emplace type d s)] at found)
  owned n p' stands := by
    rw [indexOf_congr (node_emplace type d s)]
    exact rendered.owned n p' stands
  below := rendered.below
  forth c mem := by
    rcases List.mem_append.mp mem with old | new
    · obtain ⟨p', q', isP, isQ, inFlows⟩ := rendered.forth c old
      exact ⟨p', q', isP, isQ, .inl inFlows⟩
    · rw [List.mem_singleton.mp new]
      exact ⟨p, q, rendered.named p d isDest, rendered.named q s isSrc, .inr rfl⟩
  back f mem n stands := by
    rcases mem with old | rfl
    · obtain ⟨m, isM, there⟩ := rendered.back f old n stands
      exact ⟨m, isM, List.mem_append_left _ there⟩
    · obtain rfl := rendered.index_unique isDest stands
      exact ⟨s, rendered.named q s isSrc, mem_emplace ..⟩
  used f mem := by
    rcases mem with old | rfl
    · exact rendered.used f old
    · exact ⟨d, rendered.named p d isDest⟩
  object f mem address := by
    rw [indexOf_congr (node_emplace type d s)]
    rcases mem with old | rfl
    · exact rendered.object f old address
    · exact ⟨s, isSrc⟩
  loaded f mem p' q' isTemp := by
    rcases mem with old | rfl
    · exact rendered.loaded f old p' q' isTemp
    · obtain rfl : p = .between p' q' := isTemp
      cases isDest
  temporary n p' q' stands := .inl (rendered.temporary n p' q' stands)

theorem allocated (rendered : A.Rendered naming flows) {k : Slot} (free : k ∉ A.taken) :
    (A.allocated k).Rendered (Function.update naming A.nodeFactory.numNodes (some (.slot k)))
      flows := by
  have numNodes : (A.allocated k).nodeFactory.numNodes = A.nodeFactory.numNodes + 1 := by
    cases k <;> rfl
  have constraints : (A.allocated k).constraints = A.constraints := by cases k <;> rfl
  have other : ∀ p, p ≠ .slot k → (A.allocated k).indexOf p = A.indexOf p := by
    intro p differs
    cases p with
    | slot j => exact node_allocated_other fun same => differs (by rw [same])
    | _ => rfl
  have older : ∀ n p, naming n = some p → n ≠ A.nodeFactory.numNodes :=
    fun n p stands => Nat.ne_of_lt (rendered.below n p stands)
  have kept : ∀ n p, naming n = some p →
      Function.update naming A.nodeFactory.numNodes (some (.slot k)) n = some p :=
    fun n p stands => (Function.update_of_ne (older n p stands) _ _).trans stands
  have unnamed : ∀ n, naming n ≠ some (.slot k) := by
    intro n stands
    rcases rendered.owned n _ stands with found | ⟨_, _, absurd⟩
    · exact free (taken_iff.mpr ⟨n, found⟩)
    · cases absurd
  have earlier : ∀ f ∈ flows, f.dest ≠ .slot k := by
    intro f mem same
    obtain ⟨n, stands⟩ := rendered.used f mem
    exact unnamed n (same ▸ stands)
  constructor
  · rw [numNodes]
    exact rendered.reserved.trans (Nat.le_succ _)
  · intro p n found
    by_cases here : p = .slot k
    · rw [here] at found ⊢
      rw [← Option.some.inj ((node_allocated A k).symm.trans found), Function.update_self]
    · rw [other p here] at found
      exact kept n p (rendered.named p n found)
  · intro n p stands
    by_cases here : n = A.nodeFactory.numNodes
    · rw [here, Function.update_self] at stands
      rw [← Option.some.inj stands, here]
      exact .inl (node_allocated A k)
    · rw [Function.update_of_ne here] at stands
      rw [other p fun same => unnamed n (same ▸ stands)]
      exact rendered.owned n p stands
  · intro n p stands
    rw [numNodes]
    by_cases here : n = A.nodeFactory.numNodes
    · exact here ▸ Nat.lt_succ_self _
    · rw [Function.update_of_ne here] at stands
      exact (rendered.below n p stands).trans (Nat.lt_succ_self _)
  · intro c mem
    rw [constraints] at mem
    obtain ⟨p, q, isP, isQ, inFlows⟩ := rendered.forth c mem
    exact ⟨p, q, kept _ p isP, kept _ q isQ, inFlows⟩
  · intro f mem n stands
    rw [constraints]
    by_cases here : n = A.nodeFactory.numNodes
    · rw [here, Function.update_self] at stands
      exact absurd (Option.some.inj stands).symm (earlier f mem)
    · rw [Function.update_of_ne here] at stands
      obtain ⟨m, isM, there⟩ := rendered.back f mem n stands
      exact ⟨m, kept m _ isM, there⟩
  · intro f mem
    obtain ⟨n, stands⟩ := rendered.used f mem
    exact ⟨n, kept n _ stands⟩
  · intro f mem address
    obtain ⟨n, found⟩ := rendered.object f mem address
    by_cases here : f.src = .slot k
    · exact ⟨_, by rw [here]; exact node_allocated A k⟩
    · exact ⟨n, by rw [other _ here]; exact found⟩
  · exact rendered.loaded
  · intro n p q stands
    by_cases here : n = A.nodeFactory.numNodes
    · rw [here, Function.update_self] at stands
      cases stands
    · rw [Function.update_of_ne here] at stands
      exact rendered.temporary n p q stands

theorem transfer (rendered : A.Rendered naming flows) {p q : Place} {d s : NodeIndex}
    (isDest : A.indexOf p = some d) (isSrc : A.indexOf q = some s) :
    (A.withTransfer d s).Rendered
      (Function.update naming A.nodeFactory.numNodes (some (.between p q)))
      (flows ∪ transferFlows p q) := by
  let temp := A.nodeFactory.numNodes
  have same := indexOf_congr (node_withTransfer (A := A) d s)
  have numNodes : (A.withTransfer d s).nodeFactory.numNodes = temp + 1 := rfl
  have mem_constraints : ∀ c, c ∈ (A.withTransfer d s).constraints ↔
      c ∈ A.constraints ∨ c = ⟨.LOAD, temp, s⟩ ∨ c = ⟨.STORE, d, temp⟩ := by
    intro c
    simp [withTransfer, Collection.emplace, NodeMaps.createUnnamedNode, temp]
  have older : ∀ n p', naming n = some p' → n ≠ temp :=
    fun n p' stands => Nat.ne_of_lt (rendered.below n p' stands)
  have kept : ∀ n p', naming n = some p' →
      Function.update naming temp (some (.between p q)) n = some p' :=
    fun n p' stands => (Function.update_of_ne (older n p' stands) _ _).trans stands
  have here : Function.update naming temp (some (.between p q)) temp = some (.between p q) :=
    Function.update_self ..
  have cases_of : ∀ n p', Function.update naming temp (some (.between p q)) n = some p' →
      (n = temp ∧ p' = .between p q) ∨ naming n = some p' := by
    intro n p' stands
    by_cases isTemp : n = temp
    · rw [isTemp, here] at stands
      exact .inl ⟨isTemp, (Option.some.inj stands).symm⟩
    · rw [Function.update_of_ne isTemp] at stands
      exact .inr stands
  have namedDest := kept d p (rendered.named p d isDest)
  have namedSrc := kept s q (rendered.named q s isSrc)
  constructor
  · rw [numNodes]
    exact rendered.reserved.trans (Nat.le_succ _)
  · intro p' n found
    rw [same] at found
    exact kept n p' (rendered.named p' n found)
  · intro n p' stands
    rw [same]
    rcases cases_of n p' stands with ⟨_, rfl⟩ | old
    · exact .inr ⟨p, q, rfl⟩
    · exact rendered.owned n p' old
  · intro n p' stands
    rw [numNodes]
    rcases cases_of n p' stands with ⟨rfl, _⟩ | old
    · exact Nat.lt_succ_self _
    · exact (rendered.below n p' old).trans (Nat.lt_succ_self _)
  · intro c mem
    rcases (mem_constraints c).mp mem with old | rfl | rfl
    · obtain ⟨p', q', isP, isQ, inFlows⟩ := rendered.forth c old
      exact ⟨p', q', kept _ p' isP, kept _ q' isQ, .inl inFlows⟩
    · exact ⟨_, q, here, namedSrc, .inr (.inl rfl)⟩
    · exact ⟨p, _, namedDest, here, .inr (.inr rfl)⟩
  · intro f mem n stands
    rcases mem with old | rfl | rfl
    · rcases cases_of n f.dest stands with ⟨rfl, isTemp⟩ | before
      -- an earlier temporary of the same two places was loaded from the same node
      · rw [rendered.loaded f old p q isTemp]
        exact ⟨s, namedSrc, (mem_constraints _).mpr (.inr (.inl rfl))⟩
      · obtain ⟨m, isM, there⟩ := rendered.back f old n before
        exact ⟨m, kept m _ isM, (mem_constraints _).mpr (.inl there)⟩
    · rcases cases_of n _ stands with ⟨rfl, _⟩ | before
      · exact ⟨s, namedSrc, (mem_constraints _).mpr (.inr (.inl rfl))⟩
      · obtain ⟨m, isM, there⟩ := rendered.back _ (rendered.temporary n p q before) n before
        exact ⟨m, kept m _ isM, (mem_constraints _).mpr (.inl there)⟩
    · rcases cases_of n _ stands with ⟨_, isTemp⟩ | before
      · rw [show p = .between p q from isTemp] at isDest
        cases isDest
      · obtain rfl := rendered.index_unique isDest before
        exact ⟨temp, here, (mem_constraints _).mpr (.inr (.inr rfl))⟩
  · intro f mem
    rcases mem with old | rfl | rfl
    · obtain ⟨n, stands⟩ := rendered.used f old
      exact ⟨n, kept n _ stands⟩
    · exact ⟨temp, here⟩
    · exact ⟨d, namedDest⟩
  · intro f mem address
    rw [same]
    rcases mem with old | rfl | rfl
    · exact rendered.object f old address
    · cases address
    · cases address
  · intro f mem p' q' isTemp
    rcases mem with old | rfl | rfl
    · exact rendered.loaded f old p' q' isTemp
    · obtain ⟨rfl, rfl⟩ := Place.between.inj isTemp
      rfl
    · obtain rfl : p = .between p' q' := isTemp
      cases isDest
  · intro n p' q' stands
    rcases cases_of n _ stands with ⟨_, isTemp⟩ | before
    · obtain ⟨rfl, rfl⟩ := Place.between.inj isTemp
      exact .inr (.inl rfl)
    · exact .inl (rendered.temporary n p' q' before)

end Rendered
/-! ### What the functions of the pass add -/

def values (A : Collection) : Set Entity := {v | .value v ∈ A.taken}

structure Adds (A A' : Collection) (created : Set Entity) (added : Set Flow) : Prop where
  values : A'.values = A.values ∪ created
  renders : ∀ flows, A.Renders flows → A'.Renders (flows ∪ added)

def Finds (A : Collection) (place : Option Place) (n : NodeIndex) : Prop :=
  ∃ p, place = some p ∧ A.indexOf p = some n

theorem adds_refl (A : Collection) : A.Adds A ∅ ∅ := by
  constructor
  · rw [Set.union_empty]
  · intro flows renders
    rwa [Set.union_empty]

theorem adds_trans {created later : Set Entity} (one : A.Adds A' created added)
    (two : A'.Adds B later more) : A.Adds B (created ∪ later) (added ∪ more) where
  values := by rw [two.values, one.values, Set.union_assoc]
  renders flows renders := by
    rw [← Set.union_assoc]
    exact two.renders _ (one.renders flows renders)

theorem adds_next (one : A.Adds A' ∅ added) (two : A'.Adds B ∅ more) :
    A.Adds B ∅ (added ∪ more) := by
  have both := adds_trans one two
  rwa [Set.union_empty] at both

theorem adds_after (one : A.Adds A' ∅ ∅) (two : A'.Adds B ∅ added) : A.Adds B ∅ added := by
  have both := adds_next one two
  rwa [Set.empty_union] at both

theorem values_congr (same : A'.node = A.node) : A'.values = A.values ∪ ∅ := by
  rw [Set.union_empty]
  unfold values taken
  rw [same]

theorem adds_emplace {type : ConstraintType} {dest src : Option Place} {d s : NodeIndex}
    (isDest : A.Finds dest d) (isSrc : A.Finds src s) :
    A.Adds (A.emplace type d s) ∅ (flow type dest src) := by
  obtain ⟨p, rfl, isP⟩ := isDest
  obtain ⟨q, rfl, isQ⟩ := isSrc
  constructor
  · exact values_congr (node_emplace type d s)
  · intro flows ⟨naming, rendered⟩
    rw [flow_some]
    exact ⟨naming, rendered.emplace isP isQ⟩

theorem adds_transfer {dest src : Option Place} {d s : NodeIndex} (isDest : A.Finds dest d)
    (isSrc : A.Finds src s) : A.Adds (A.withTransfer d s) ∅
      {f | ∃ p q, dest = some p ∧ src = some q ∧ f ∈ transferFlows p q} := by
  obtain ⟨p, rfl, isP⟩ := isDest
  obtain ⟨q, rfl, isQ⟩ := isSrc
  constructor
  · exact values_congr (node_withTransfer d s)
  · intro flows ⟨naming, rendered⟩
    have same : {f | ∃ p' q', some p = some p' ∧ some q = some q' ∧ f ∈ transferFlows p' q'} =
        transferFlows p q := by
      ext f
      simp
    rw [same]
    exact ⟨_, rendered.transfer isP isQ⟩

theorem adds_allocated {k : Slot} (free : k ∉ A.taken) :
    A.Adds (A.allocated k) {v | .value v = k} ∅ := by
  constructor
  · ext v
    show .value v ∈ (A.allocated k).taken ↔ .value v ∈ A.taken ∨ .value v = k
    by_cases here : Slot.value v = k
    · rw [here]
      exact ⟨fun _ => .inr rfl, fun _ => taken_iff.mpr ⟨_, node_allocated A k⟩⟩
    · rw [taken_iff, taken_iff, node_allocated_other here]
      exact ⟨.inl, fun known => known.resolve_right here⟩
  · intro flows ⟨naming, rendered⟩
    rw [Set.union_empty]
    exact ⟨_, rendered.allocated free⟩

theorem adds_onlyIf {f : Collection → Option Collection} {c : Bool} {created : Set Entity}
    (run : A.onlyIf c f = some A') (step : c = true → f A = some A' → A.Adds A' created added) :
    A.Adds A' {v | c = true ∧ v ∈ created} (flowsIf c added) := by
  unfold onlyIf at run
  cases c with
  | false =>
    obtain rfl := Option.some.inj run
    simpa using adds_refl A
  | true => simpa using step rfl run

theorem adds_whenever {f : Collection → Option Collection} {c : Bool}
    (run : A.onlyIf c f = some A') (step : c = true → f A = some A' → A.Adds A' ∅ added) :
    A.Adds A' ∅ (flowsIf c added) := by
  simpa using adds_onlyIf run step

theorem adds_foldlM {α : Type} {f : Collection → α → Option Collection} {l : List α}
    {created : α → Set Entity} {each : α → Set Flow}
    (step : ∀ x ∈ l, ∀ B B', f B x = some B' → B.Adds B' (created x) (each x))
    (run : l.foldlM f A = some A') : A.Adds A' (⋃ x ∈ l, created x) (⋃ x ∈ l, each x) := by
  induction l generalizing A with
  | nil =>
    obtain rfl : A = A' := by simpa using run
    simpa using adds_refl A
  | cons x l ih =>
    rw [List.foldlM_cons] at run
    obtain ⟨B, first, rest⟩ := bind_some run
    have one := step x (List.mem_cons_self ..) A B first
    have two := ih (fun y mem => step y (List.mem_cons_of_mem x mem)) rest
    simpa using adds_trans one two

theorem adds_loop {α : Type} {f : Collection → α → Option Collection} {l : List α}
    {each : α → Set Flow} (step : ∀ x ∈ l, ∀ B B', B.values = A.values →
      f B x = some B' → B.Adds B' ∅ (each x)) (run : l.foldlM f A = some A') :
    A.Adds A' ∅ (⋃ x ∈ l, each x) := by
  induction l generalizing A with
  | nil =>
    obtain rfl : A = A' := by simpa using run
    simpa using adds_refl A
  | cons x l ih =>
    rw [List.foldlM_cons] at run
    obtain ⟨B, first, rest⟩ := bind_some run
    have one := step x (List.mem_cons_self ..) A B rfl first
    have same : B.values = A.values := by simpa using one.values
    have two := ih (fun y mem C C' as => step y (List.mem_cons_of_mem x mem) C C'
      (as.trans same)) rest
    simpa using adds_next one two

theorem finds_constant {c : Constant} {n : NodeIndex}
    (found : A.nodeFactory.getValueNodeForConstant c = some n) : A.Finds c.place n := by
  induction c using NodeMaps.getValueNodeForConstant.induct with
  | case3 v => exact ⟨_, rfl, found⟩
  | case4 base offset ih => exact ih found
  | case5 operand ih => exact ih found
  | _ => first | exact ⟨_, rfl, found⟩ | cases found

theorem finds_pointee {c : Constant} {n : NodeIndex}
    (found : A.nodeFactory.getObjectNodeForConstant c = some n) : A.Finds c.pointee n := by
  induction c using NodeMaps.getObjectNodeForConstant.induct with
  | case2 v => exact ⟨_, rfl, found⟩
  | case3 base offset ih => exact ih found
  | case4 operand ih => exact ih found
  | _ => first | exact ⟨_, rfl, found⟩ | cases found

theorem finds_value {v : PtrValue} {n : NodeIndex} (found : A.getValueNodeFor v = some n) :
    A.Finds v.place n := by
  cases v with
  | constant c => exact finds_constant found
  | scalar => cases found
  | _ => exact ⟨_, rfl, found⟩

theorem finds_slot {k : Slot} {n : NodeIndex} (found : A.node k = some n) :
    A.Finds (some (.slot k)) n := ⟨_, rfl, found⟩

theorem finds_mono (le : A ≤ A') {place : Option Place} {n : NodeIndex}
    (found : A.Finds place n) : A'.Finds place n := by
  obtain ⟨p, isP, here⟩ := found
  refine ⟨p, isP, ?_⟩
  cases p with
  | slot k => exact node_mono le here
  | _ => exact here

theorem copyValue_adds {dst src : PtrValue} (run : A.copyValue dst src = some A') :
    A.Adds A' ∅ (flow .COPY dst.place src.place) := by
  obtain ⟨s, isSrc, run⟩ := bind_some run
  obtain ⟨d, isDst, run⟩ := bind_some run
  obtain rfl := Option.some.inj run
  exact adds_emplace (finds_value isDst) (finds_value isSrc)

theorem copyUniversal_adds {dst : PtrValue} (run : A.copyUniversal dst = some A') :
    A.Adds A' ∅ dst.unknownFlows := by
  obtain ⟨d, isDst, run⟩ := bind_some run
  obtain rfl := Option.some.inj run
  exact adds_emplace (finds_value isDst) ⟨_, rfl, rfl⟩

/-! ### Globals -/

theorem adds_value {v : Entity} (free : .value v ∉ A.taken) :
    A.Adds (A.allocated (.value v)) {v} ∅ := by
  have adds := adds_allocated free
  simpa using adds

theorem adds_unvalued {k : Slot} (free : k ∉ A.taken) (other : ∀ v, .value v ≠ k) :
    A.Adds (A.allocated k) ∅ ∅ := by
  have adds := adds_allocated free
  simpa [other] using adds

theorem createValueNode_adds {v : Entity} {n : NodeIndex}
    (run : A.createValueNode v = some (n, A')) :
    A.Adds A' {v} ∅ ∧ A'.node (.value v) = some n := by
  obtain ⟨⟨m, N⟩, created, same⟩ := bind_some run
  obtain ⟨rfl, rfl⟩ := Prod.mk.inj (Option.some.inj same)
  unfold NodeMaps.createValueNode at created
  split at created
  · cases created
  · rename_i free
    obtain ⟨rfl, rfl⟩ := Prod.mk.inj (Option.some.inj created)
    exact ⟨@adds_value A v free, node_allocated A (.value v)⟩

theorem createObjectNode_adds {v : Entity} {n : NodeIndex}
    (run : A.createObjectNode v = some (n, A')) :
    A.Adds A' ∅ ∅ ∧ A ≤ A' ∧ A'.node (.object v) = some n := by
  obtain ⟨⟨m, N⟩, created, same⟩ := bind_some run
  obtain ⟨rfl, rfl⟩ := Prod.mk.inj (Option.some.inj same)
  unfold NodeMaps.createObjectNode at created
  split at created
  · cases created
  · rename_i free
    obtain ⟨rfl, rfl⟩ := Prod.mk.inj (Option.some.inj created)
    refine ⟨@adds_unvalued A (.object v) free (by simp), ?_, node_allocated A (.object v)⟩
    exact (@makes_allocated A (.object v) free).le

theorem createReturnNode_adds {f : FuncId} (run : A.createReturnNode f = some A') :
    A.Adds A' ∅ ∅ := by
  obtain ⟨N, created, same⟩ := bind_some run
  obtain rfl := Option.some.inj same
  unfold NodeMaps.createReturnNode at created
  split at created
  · cases created
  · rename_i free
    obtain rfl := Option.some.inj created
    exact @adds_unvalued A (.ret f) free (by simp)

theorem createVarargNode_adds {f : FuncId} (run : A.createVarargNode f = some A') :
    A.Adds A' ∅ ∅ := by
  obtain ⟨N, created, same⟩ := bind_some run
  obtain rfl := Option.some.inj same
  unfold NodeMaps.createVarargNode at created
  split at created
  · cases created
  · rename_i free
    obtain rfl := Option.some.inj created
    exact @adds_unvalued A (.vararg f) free (by simp)

theorem addAddressable_adds {v : GlobalValue} (run : A.addAddressable v = some A') :
    A.Adds A' {.globalValue v} v.flows := by
  obtain ⟨⟨val, A₁⟩, first, run⟩ := bind_some run
  obtain ⟨⟨obj, A₂⟩, second, run⟩ := bind_some run
  obtain rfl := Option.some.inj run
  obtain ⟨one, valNode⟩ := createValueNode_adds first
  obtain ⟨two, le, objNode⟩ := createObjectNode_adds second
  have three := @adds_emplace A₂ .ADDR_OF _ _ _ _ (finds_slot (node_mono le valNode))
    (finds_slot objNode)
  have all := adds_trans one (adds_next two three)
  simp only [Set.union_empty, Set.empty_union] at all
  exact all

theorem addFormal_adds {formal : Argument} (run : A.addFormal formal = some A') :
    A.Adds A' {v | formal.pointerTy = true ∧ v = .argument formal.id} ∅ := by
  have adds : A.Adds A' {v | formal.pointerTy = true ∧ v ∈ ({.argument formal.id} : Set Entity)}
      (flowsIf formal.pointerTy ∅) := adds_onlyIf run fun _ run => by
    obtain ⟨⟨n, B⟩, created, same⟩ := bind_some run
    obtain rfl := Option.some.inj same
    exact (createValueNode_adds created).1
  simpa [flowsIf] using adds

def formalValues (F : PtrFunction) : Set Entity :=
  {v | ∃ formal ∈ F.args, formal.pointerTy = true ∧ v = .argument formal.id}

theorem addFunctionBody_adds {F : PtrFunction} (run : A.addFunctionBody F = some A') :
    A.Adds A' (formalValues F) ∅ := by
  obtain ⟨A₁, first, run⟩ := bind_some run
  obtain ⟨A₂, second, run⟩ := bind_some run
  have one := adds_whenever first fun _ => createReturnNode_adds
  have two := adds_whenever second fun _ => createVarargNode_adds
  have three := adds_foldlM (fun formal _ B B' run => addFormal_adds run) run
  have created : ∅ ∪ ⋃ formal ∈ F.args, {v | formal.pointerTy = true ∧
      v = Entity.argument formal.id} = formalValues F := by
    ext v
    simp [formalValues, and_left_comm]
  have all := adds_trans (adds_next one two) three
  rw [created] at all
  simpa [flowsIf] using all

def functionValues (M : PtrModule) (F : PtrFunction) : Set Entity :=
  {v | M.hasAddressTaken F.id = true ∧ v = .globalValue (.function F.id)} ∪
    {v | (!F.isExternal) = true ∧ v ∈ formalValues F}

theorem addFunction_adds {M : PtrModule} {F : PtrFunction} (run : addFunction M A F = some A') :
    A.Adds A' (functionValues M F)
      (flowsIf (M.hasAddressTaken F.id) (GlobalValue.function F.id).flows) := by
  obtain ⟨A₁, first, run⟩ := bind_some run
  have one := adds_onlyIf first fun _ => addAddressable_adds
  have two := adds_onlyIf run fun _ => addFunctionBody_adds
  have all := adds_trans one two
  have nothing : flowsIf (!F.isExternal) ∅ = ∅ := by
    ext f
    simp
  rw [nothing, Set.union_empty] at all
  exact all

theorem finds_congr (same : A'.node = A.node) {place : Option Place} {n : NodeIndex}
    (found : A.Finds place n) : A'.Finds place n := by
  obtain ⟨p, isP, here⟩ := found
  exact ⟨p, isP, (indexOf_congr same p).trans here⟩

mutual

theorem addGlobalInitializerConstraints_adds {obj : Option Place} {objNode : NodeIndex} :
    ∀ (c : Constant) {A A' : Collection}, A.Finds obj objNode →
      A.addGlobalInitializerConstraints objNode c = some A' →
      A'.node = A.node ∧ A.Adds A' ∅ (c.flowsInto obj)
  | .aggregate elements, A, A', isObj, run => by
    simp only [addGlobalInitializerConstraints] at run
    simp only [Constant.flowsInto]
    exact addElements_adds elements isObj run
  | .aggregateZero, A, A', isObj, run => by
    simp only [addGlobalInitializerConstraints, Option.some.injEq] at run
    rw [← run]
    exact ⟨node_emplace .., adds_emplace isObj ⟨_, rfl, rfl⟩⟩
  | .undefAggregate, A, A', _, run | .scalar, A, A', _, run => by
    simp only [addGlobalInitializerConstraints, Option.some.injEq] at run
    rw [← run]
    exact ⟨rfl, adds_refl A⟩
  | .pointerNull, A, A', isObj, run | .undefPointer, A, A', isObj, run
  | .globalValue _, A, A', isObj, run | .getElementPtr _ _, A, A', isObj, run
  | .bitCast _, A, A', isObj, run | .intToPtr, A, A', isObj, run
  | .pointerExpr, A, A', isObj, run => by
    obtain ⟨rhs, found, run⟩ := bind_some run
    obtain rfl := Option.some.inj run
    exact ⟨node_emplace .., adds_emplace isObj (finds_pointee found)⟩

theorem addElements_adds {obj : Option Place} {objNode : NodeIndex} :
    ∀ (cs : List Constant) {A A' : Collection}, A.Finds obj objNode →
      addGlobalInitializerConstraints.addElements A objNode cs = some A' →
      A'.node = A.node ∧ A.Adds A' ∅ (Constant.flowsInto.allFlows obj cs)
  | [], A, A', _, run => by
    simp only [addGlobalInitializerConstraints.addElements, Option.some.injEq] at run
    rw [← run]
    exact ⟨rfl, adds_refl A⟩
  | c :: rest, A, A', isObj, run => by
    obtain ⟨B, first, run⟩ := bind_some run
    obtain ⟨same, one⟩ := addGlobalInitializerConstraints_adds c isObj first
    obtain ⟨same', two⟩ := addElements_adds rest (finds_congr same isObj) run
    exact ⟨same'.trans same, adds_next one two⟩

end

theorem initGlobal_adds {G : GlobalVariable} (run : A.initGlobal G = some A') :
    A.Adds A' ∅ G.flows := by
  obtain ⟨gObj, found, run⟩ := bind_some run
  have isObj : A.Finds (objectPlace (.globalValue (.globalVariable G.id))) gObj :=
    finds_slot (k := .object (.globalValue (.globalVariable G.id))) found
  unfold GlobalVariable.flows
  cases definitive : G.definitiveInitializer with
  | some c =>
    rw [definitive] at run
    exact (addGlobalInitializerConstraints_adds c isObj run).2
  | none =>
    rw [definitive] at run
    obtain rfl := Option.some.inj run
    exact adds_emplace isObj ⟨_, rfl, rfl⟩

theorem collectConstraintsForGlobals_adds {M : PtrModule}
    (run : A.collectConstraintsForGlobals M = some A') :
    A.Adds A' ((⋃ G ∈ M.globals, {.globalValue (.globalVariable G.id)}) ∪
      ⋃ F ∈ M.functions, functionValues M F) M.globalFlows := by
  obtain ⟨A₁, first, run⟩ := bind_some run
  obtain ⟨A₂, second, run⟩ := bind_some run
  have one := adds_foldlM (fun G _ B B' run => addAddressable_adds run) first
  have two := adds_foldlM (fun F _ B B' run => addFunction_adds run) second
  have three := adds_foldlM (fun G _ B B' run => initGlobal_adds run) run
  have all := adds_trans (adds_trans one two) three
  simp only [Set.iUnion_empty, Set.union_empty] at all
  exact all

/-! ### Library functions -/

section Library
variable {names : FuncId → String} {M : PtrModule} {I : PtrInstruction} {args : List PtrValue}
  {F : PtrFunction}

theorem finds_argument {k : Nat} {n : NodeIndex}
    (found : args[k]?.bind A.getValueNodeFor = some n) : A.Finds (argumentPlace args k) n := by
  obtain ⟨v, isArg, found⟩ := Option.bind_eq_some_iff.mp found
  obtain ⟨p, isP, here⟩ := finds_value found
  refine ⟨p, ?_, here⟩
  unfold argumentPlace
  rw [isArg]
  exact isP

theorem value_node (known : .instruction I.id ∈ A.values ↔ I.pointerTy = true) :
    (A.getValueNodeFor (.instruction I.id)).isSome = I.pointerTy := by
  rw [Bool.eq_iff_iff]
  exact known

theorem addAllocation_adds (known : .instruction I.id ∈ A.values ↔ I.pointerTy = true)
    (run : A.addAllocation names I args = some A') :
    A.Adds A' ∅ (allocationFlows I args) := by
  have free := free_of_addAllocation run
  have created : A.Adds (A.withObject I) ∅ ∅ := adds_unvalued free (by simp)
  have object : (A.withObject I).Finds (objectPlace (.instruction I.id)) A.nodeFactory.numNodes :=
    finds_slot (node_allocated A (.object (.instruction I.id)))
  have le : A ≤ A.withObject I := (makes_allocated free).le
  have isValue := value_node known
  rw [addAllocation_eq free] at run
  unfold allocationFlows
  dsimp only
  cases isRet : A.getValueNodeFor (.instruction I.id) with
  | some r =>
    rw [isRet] at run isValue
    obtain rfl := Option.some.inj run
    have pointer : I.pointerTy = true := isValue.symm
    rw [if_pos pointer]
    exact adds_after created (adds_emplace (finds_mono le (finds_value isRet)) object)
  | none =>
    rw [isRet] at run isValue
    have scalar : I.pointerTy = false := isValue.symm
    rw [if_neg (by simp [scalar])]
    simp only at run
    split at run
    · obtain ⟨k, found, rfl⟩ := Option.map_eq_some_iff.mp run
      exact adds_after created (adds_emplace (finds_mono le (finds_argument found)) object)
    · cases run

theorem addReturnedArg_adds {k : Nat} (run : A.addReturnedArg I args k = some A') :
    A.Adds A' ∅ (returnedFlows I args k) := by
  rw [addReturnedArg_eq] at run
  obtain ⟨r, isRet, run⟩ := Option.bind_eq_some_iff.mp run
  obtain ⟨a, isArg, rfl⟩ := Option.map_eq_some_iff.mp run
  exact adds_emplace (finds_value isRet) (finds_argument isArg)

theorem addMemcpy_adds (known : .instruction I.id ∈ A.values ↔ I.pointerTy = true)
    (run : A.addMemcpy I args = some A') : A.Adds A' ∅ (memcpyFlows I args) := by
  rw [addMemcpy_eq] at run
  obtain ⟨d, isDest, run⟩ := Option.bind_eq_some_iff.mp run
  obtain ⟨s, isSrc, rfl⟩ := Option.map_eq_some_iff.mp run
  have moved := adds_transfer (finds_argument isDest) (finds_argument isSrc)
  have same := node_withTransfer (A := A) d s
  have isValue := value_node known
  unfold withCopy memcpyFlows
  cases isRet : A.getValueNodeFor (.instruction I.id) with
  | some r =>
    rw [isRet] at isValue
    rw [← isValue, Option.isSome_some, flowsIf_true]
    exact adds_next moved (adds_emplace (finds_congr same (finds_value isRet))
      (finds_congr same (finds_argument isDest)))
  | none =>
    rw [isRet] at isValue
    rw [← isValue, Option.isSome_none, flowsIf_false, Set.union_empty]
    exact moved

theorem addConversion_adds (run : A.addConversion args = some A') :
    A.Adds A' ∅ (conversionFlows args) := by
  rw [addConversion_eq] at run
  obtain ⟨endp, second, run⟩ := Option.bind_eq_some_iff.mp run
  unfold conversionFlows
  rw [second, Option.any_some]
  cases null : endp.isPointerNull with
  | true =>
    rw [null] at run
    obtain rfl := Option.some.inj run
    simpa using adds_refl A
  | false =>
    rw [null] at run
    obtain ⟨s, isText, run⟩ := Option.bind_eq_some_iff.mp run
    obtain ⟨e, isEnd, rfl⟩ := Option.map_eq_some_iff.mp run
    rw [Bool.not_false, flowsIf_true]
    exact adds_emplace (finds_argument isText)
      (finds_argument (Option.bind_eq_some_iff.mpr ⟨endp, second, isEnd⟩))

theorem addVaStart_adds (run : A.addVaStart M I args = some A') :
    A.Adds A' ∅ (vaStartFlows M I args) := by
  obtain ⟨parentF, found, run⟩ := bind_some run
  split at run
  · obtain ⟨arg0, first, run⟩ := bind_some run
    obtain ⟨k, isArg, run⟩ := bind_some run
    obtain ⟨va, isVa, run⟩ := bind_some run
    obtain rfl := Option.some.inj run
    unfold vaStartFlows
    rw [found]
    exact adds_emplace (finds_argument (Option.bind_eq_some_iff.mpr ⟨arg0, first, isArg⟩))
      (finds_slot (k := .vararg parentF.id) isVa)
  · cases run

/-- Either the call was handled, and that adds the flows, or nothing has happened. -/
def Answers (A A' : Collection) (handled : Bool) : Option (Set Flow) → Prop
  | some flows => handled = true ∧ A.Adds A' ∅ flows
  | none => handled = false ∧ A' = A

variable {handled : Bool}

theorem answers_if {c : Prop} [Decidable c] {x y : Option (Bool × Collection)}
    {o o' : Option (Set Flow)} (run : (if c then x else y) = some (handled, A'))
    (here : x = some (handled, A') → A.Answers A' handled o)
    (later : y = some (handled, A') → A.Answers A' handled o') :
    A.Answers A' handled (if c then o else o') := by
  split at run
  · rename_i isHere
    rw [if_pos isHere]
    exact here run
  · rename_i notHere
    rw [if_neg notHere]
    exact later run

theorem answers_map {x : Option Collection} (run : x.map (true, ·) = some (handled, A'))
    (adds : ∀ B, x = some B → A.Adds B ∅ flows) : A.Answers A' handled (some flows) := by
  obtain ⟨B, isB, same⟩ := Option.map_eq_some_iff.mp run
  obtain ⟨rfl, rfl⟩ := Prod.mk.inj same
  exact ⟨rfl, adds B isB⟩

theorem library_answers (known : .instruction I.id ∈ A.values ↔ I.pointerTy = true)
    (run : A.addConstraintForExternalLibrary names M I args F = some (handled, A')) :
    A.Answers A' handled (libraryFlows names M I args F) := by
  unfold addConstraintForExternalLibrary at run
  obtain ⟨_, run⟩ := Option.ite_none_left_eq_some.mp run
  apply answers_if run
  · intro run
    obtain ⟨rfl, rfl⟩ := Prod.mk.inj (Option.some.inj run)
    exact ⟨rfl, adds_refl A⟩
  intro run
  apply answers_if run fun run => answers_map run fun B => addAllocation_adds known
  intro run
  apply answers_if run
  · intro run
    obtain ⟨arg0, first, run⟩ := bind_some run
    rw [first, Option.any_some]
    dsimp only at run
    cases null : arg0.isPointerNull with
    | true =>
      rw [null] at run
      obtain ⟨B, first, same⟩ := bind_some run
      obtain ⟨rfl, rfl⟩ := Prod.mk.inj (Option.some.inj same)
      exact ⟨rfl, addReturnedArg_adds first⟩
    | false =>
      rw [null] at run
      obtain ⟨B, first, same⟩ := bind_some run
      obtain ⟨rfl, rfl⟩ := Prod.mk.inj (Option.some.inj same)
      exact ⟨rfl, addAllocation_adds known first⟩
  intro run
  apply answers_if run fun run => answers_map run fun B => addReturnedArg_adds
  intro run
  apply answers_if run fun run => answers_map run fun B => addReturnedArg_adds
  intro run
  apply answers_if run fun run => answers_map run fun B => addReturnedArg_adds
  intro run
  apply answers_if run fun run => answers_map run fun B => addMemcpy_adds known
  intro run
  apply answers_if run fun run => answers_map run fun B => addConversion_adds
  intro run
  apply answers_if run fun run => answers_map run fun B => addVaStart_adds
  intro run
  obtain ⟨rfl, rfl⟩ := Prod.mk.inj (Option.some.inj run)
  exact ⟨rfl, rfl⟩

end Library

/-! ### Instructions -/

section Instructions
variable {names : FuncId → String} {M : PtrModule} {I : PtrInstruction} {args : List PtrValue}
  {F : PtrFunction}

theorem values_kept (adds : A.Adds A' ∅ added) : A'.values = A.values := by
  rw [adds.values, Set.union_empty]

theorem addFormalActual_adds {pair : Argument × PtrValue} (run : A.addFormalActual pair = some A') :
    A.Adds A' ∅ (passedFlows pair) := by
  apply adds_whenever run
  intro _ run
  split at run
  · rename_i pointer
    rw [if_pos pointer]
    exact copyValue_adds run
  · rename_i scalar
    rw [if_neg scalar]
    exact copyUniversal_adds run

theorem addVararg_adds {v : PtrValue} (run : A.addVararg F v = some A') :
    A.Adds A' ∅ (flowsIf v.isPointerTy (flow .COPY (some (.slot (.vararg F.id))) v.place)) := by
  apply adds_whenever run
  intro _ run
  obtain ⟨a, isActual, run⟩ := bind_some run
  obtain ⟨va, isVa, run⟩ := bind_some run
  obtain rfl := Option.some.inj run
  exact adds_emplace (finds_slot (k := .vararg F.id) isVa) (finds_value isActual)

theorem addArgumentConstraintForCall_adds (run : A.addArgumentConstraintForCall args F = some A') :
    A.Adds A' ∅ (F.argumentFlows args) := by
  obtain ⟨A₁, first, run⟩ := bind_some run
  have one := adds_loop (f := addFormalActual) (fun _ _ _ _ _ => addFormalActual_adds) first
  have two := adds_whenever run fun _ =>
    adds_loop (f := addVararg F) fun _ _ _ _ _ => addVararg_adds
  exact adds_next one two

theorem pollute_adds (run : A.pollute args = some A') :
    A.Adds A' ∅ (⋃ v ∈ args, flowsIf v.isPointerTy v.unknownFlows) :=
  adds_loop (fun _ _ _ _ _ run => adds_whenever run fun _ => copyUniversal_adds) run

theorem external_adds (known : .instruction I.id ∈ A.values ↔ I.pointerTy = true)
    {rest : Collection → Option Collection} {otherwise : Set Flow}
    (run : (A.addConstraintForExternalLibrary names M I args F).bind
      (fun r => r.2.onlyIf (!r.1) rest) = some A')
    (adds : rest A = some A' → A.Adds A' ∅ otherwise) :
    A.Adds A' ∅ ((libraryFlows names M I args F).getD otherwise) := by
  obtain ⟨⟨handled, A₁⟩, first, second⟩ := Option.bind_eq_some_iff.mp run
  have answers := library_answers known first
  cases isKnown : libraryFlows names M I args F with
  | some flows =>
    rw [isKnown] at answers
    obtain ⟨rfl, added⟩ := answers
    obtain rfl := Option.some.inj second
    exact added
  | none =>
    rw [isKnown] at answers
    obtain ⟨rfl, rfl⟩ := answers
    exact adds second

theorem addDirectCall_adds (known : .instruction I.id ∈ A.values ↔ I.pointerTy = true)
    (run : A.addDirectCall (addConstraintForExternalLibrary names M) I args F = some A') :
    A.Adds A' ∅ (directFlows names M I args F) := by
  unfold addDirectCall at run
  unfold directFlows
  split at run
  · rename_i external
    rw [if_pos external]
    refine external_adds known run fun run => ?_
    obtain ⟨A₁, first, run⟩ := bind_some run
    exact adds_next (adds_whenever first fun _ => copyUniversal_adds) (pollute_adds run)
  · rename_i isDefined
    rw [if_neg isDefined]
    obtain ⟨A₁, first, run⟩ := bind_some run
    refine adds_next (adds_whenever first fun _ first => ?_)
      (addArgumentConstraintForCall_adds run)
    obtain ⟨r, isRet, first⟩ := bind_some first
    obtain ⟨fr, isFRet, first⟩ := bind_some first
    obtain rfl := Option.some.inj first
    exact adds_emplace (finds_value isRet) (finds_slot (k := .ret F.id) isFRet)

theorem addIndirectTarget_adds (known : .instruction I.id ∈ A.values ↔ I.pointerTy = true)
    (addressed : .globalValue (.function F.id) ∈ A.values ↔ M.hasAddressTaken F.id = true)
    (run : addIndirectTarget (addConstraintForExternalLibrary names M) I args A F = some A') :
    A.Adds A' ∅ (targetFlows names M I args F) := by
  have node : (A.nodeFactory.valueNodeMap (.globalValue (.function F.id))).isSome =
      M.hasAddressTaken F.id := by
    rw [Bool.eq_iff_iff]
    exact addressed
  unfold addIndirectTarget at run
  unfold targetFlows
  split at run
  · rename_i absent
    obtain rfl := Option.some.inj run
    rw [← node, Option.isSome_eq_false_iff.mpr absent, Bool.false_and, flowsIf_false]
    exact adds_refl A
  rename_i present
  have addressTaken : M.hasAddressTaken F.id = true := by
    rw [← node]
    exact Option.isSome_iff_ne_none.mpr (by simpa using present)
  rw [addressTaken, Bool.true_and]
  split at run
  · rename_i mismatch
    obtain rfl := Option.some.inj run
    have other : (F.isVarArg || decide (F.args.length = args.length)) = false := by
      simpa using mismatch
    rw [other, flowsIf_false]
    exact adds_refl A
  rename_i fits
  have fits : (F.isVarArg || decide (F.args.length = args.length)) = true := by
    by_contra other
    exact fits (by simpa using other)
  rw [fits, flowsIf_true]
  split at run
  · rename_i external
    rw [if_pos external]
    refine external_adds known run fun run => ?_
    exact adds_loop (f := copyUniversal) (fun _ _ _ _ _ => copyUniversal_adds) run
  · rename_i isDefined
    rw [if_neg isDefined]
    exact addArgumentConstraintForCall_adds run

/-- Which functions and whether the instruction have nodes when it is reached. -/
structure Reached (M : PtrModule) (I : PtrInstruction) (A : Collection) : Prop where
  instruction : .instruction I.id ∈ A.values ↔ I.pointerTy = true
  functions : ∀ F ∈ M.functions,
    .globalValue (.function F.id) ∈ A.values ↔ M.hasAddressTaken F.id = true

theorem reached_same (reached : A.Reached M I) (same : A'.values = A.values) : A'.Reached M I := by
  constructor
  · rw [same]
    exact reached.instruction
  · rw [same]
    exact reached.functions

theorem addConstraintForCall_adds (reached : A.Reached M I) {callee : Callee}
    (run : A.addConstraintForCall (addConstraintForExternalLibrary names M) M I args callee =
      some A') : A.Adds A' ∅ (callFlows names M I args callee) := by
  cases callee with
  | direct f =>
    obtain ⟨F, found, run⟩ := bind_some run
    have only : ⋃ F ∈ M.function? f, directFlows names M I args F = directFlows names M I args F := by
      ext g
      simp [found]
    show A.Adds A' ∅ (⋃ F ∈ M.function? f, directFlows names M I args F)
    rw [only]
    exact addDirectCall_adds reached.instruction run
  | indirect v =>
    obtain ⟨A₁, first, run⟩ := bind_some run
    have one := adds_whenever first fun _ => copyUniversal_adds
    have reached := reached_same reached (values_kept one)
    refine adds_next one (adds_loop (fun F mem B B' same run => ?_) run)
    have here := reached_same reached same
    exact addIndirectTarget_adds here.instruction (here.functions F mem) run

theorem collectConstraintsForInstruction_adds (reached : A.Reached M I)
    (run : A.collectConstraintsForInstruction (addConstraintForExternalLibrary names M) M F I =
      some A') : A.Adds A' ∅ (I.flows names M F) := by
  unfold collectConstraintsForInstruction at run
  unfold PtrInstruction.flows
  cases op : I.op with
  | alloca =>
    rw [op] at run
    obtain ⟨val, isVal, run⟩ := bind_some run
    obtain ⟨⟨obj, B⟩, created, run⟩ := bind_some run
    obtain rfl := Option.some.inj run
    obtain ⟨one, le, isObj⟩ := createObjectNode_adds created
    exact adds_after one (adds_emplace (finds_mono le (finds_value isVal)) (finds_slot isObj))
  | call callee args =>
    rw [op] at run
    exact addConstraintForCall_adds reached run
  | ret value =>
    rw [op] at run
    cases value with
    | none =>
      obtain rfl := Option.some.inj run
      exact adds_refl A
    | some v =>
      refine adds_whenever run fun _ run => ?_
      obtain ⟨r, isRet, run⟩ := bind_some run
      obtain ⟨n, isVal, run⟩ := bind_some run
      obtain rfl := Option.some.inj run
      exact adds_emplace (finds_slot (k := .ret F.id) isRet) (finds_value isVal)
  | load p =>
    rw [op] at run
    refine adds_whenever run fun _ run => ?_
    obtain ⟨o, isOp, run⟩ := bind_some run
    obtain ⟨n, isVal, run⟩ := bind_some run
    obtain rfl := Option.some.inj run
    exact adds_emplace (finds_value isVal) (finds_value isOp)
  | store v p =>
    rw [op] at run
    refine adds_whenever run fun _ run => ?_
    obtain ⟨s, isSrc, run⟩ := bind_some run
    obtain ⟨d, isDst, run⟩ := bind_some run
    obtain rfl := Option.some.inj run
    exact adds_emplace (finds_value isDst) (finds_value isSrc)
  | getElementPtr base =>
    rw [op] at run
    obtain ⟨_, run⟩ := Option.ite_none_right_eq_some.mp run
    exact copyValue_adds run
  | phi incoming =>
    rw [op] at run
    refine adds_whenever run fun _ run => ?_
    obtain ⟨n, _, run⟩ := bind_some run
    exact adds_loop (fun _ _ _ _ _ => copyValue_adds) run
  | bitCast v =>
    rw [op] at run
    exact adds_whenever run fun _ => copyValue_adds
  | intToPtr operand =>
    rw [op] at run
    cases operand with
    | unknown =>
      obtain ⟨_, run⟩ := Option.ite_none_right_eq_some.mp run
      exact copyUniversal_adds run
    | _ =>
      obtain ⟨_, run⟩ := Option.ite_none_right_eq_some.mp run
      exact copyValue_adds run
  | select v w =>
    rw [op] at run
    refine adds_whenever run fun _ run => ?_
    obtain ⟨s, isSrc, run⟩ := bind_some run
    obtain ⟨s', isSrc', run⟩ := bind_some run
    obtain ⟨d, isDst, run⟩ := bind_some run
    obtain rfl := Option.some.inj run
    exact adds_next (adds_emplace (finds_value isDst) (finds_value isSrc))
      (adds_emplace (finds_value isDst) (finds_value isSrc'))
  | vaArg =>
    rw [op] at run
    refine adds_whenever run fun _ run => ?_
    obtain ⟨d, isDst, run⟩ := bind_some run
    obtain ⟨va, isVa, run⟩ := bind_some run
    obtain rfl := Option.some.inj run
    exact adds_emplace (finds_value isDst) (finds_slot (k := .vararg F.id) isVa)
  | unsupported =>
    rw [op] at run
    cases run
  | _ =>
    rw [op] at run
    obtain ⟨_, same⟩ := Option.ite_none_left_eq_some.mp run
    obtain rfl := Option.some.inj same
    exact adds_refl A

end Instructions

/-! ### The whole of the collection -/

section Module
variable {names : FuncId → String} {M : PtrModule} {F : PtrFunction}

theorem addInstructionNode_adds {I : PtrInstruction} (run : A.addInstructionNode I = some A') :
    A.Adds A' {v | I.pointerTy = true ∧ v = .instruction I.id} ∅ := by
  have adds : A.Adds A' {v | I.pointerTy = true ∧ v ∈ ({.instruction I.id} : Set Entity)}
      (flowsIf I.pointerTy ∅) := adds_onlyIf run fun _ run => by
    obtain ⟨⟨n, B⟩, created, same⟩ := bind_some run
    obtain rfl := Option.some.inj same
    exact (createValueNode_adds created).1
  simpa [flowsIf] using adds

def pointerValues (F : PtrFunction) : Set Entity :=
  {v | ∃ I ∈ F.insts, I.pointerTy = true ∧ v = .instruction I.id}

def instructionValues (F : PtrFunction) : Set Entity :=
  {v | (!F.isExternal) = true ∧ v ∈ pointerValues F}

/-- What has nodes before a function is looked at: which functions, and which instructions
    of it and of those that come later. -/
structure Before (M : PtrModule) (later : List PtrFunction) (A : Collection) : Prop where
  functions : ∀ F ∈ M.functions,
    .globalValue (.function F.id) ∈ A.values ↔ M.hasAddressTaken F.id = true
  instructions : ∀ F ∈ later, ∀ I ∈ F.insts, .instruction I.id ∉ A.values

theorem collectConstraintsForFunction_adds {later : List PtrFunction}
    (before : A.Before M (F :: later)) (defined : F ∈ M.functions)
    (run : A.collectConstraintsForFunction (addConstraintForExternalLibrary names M) M F =
      some A') : A.Adds A' (instructionValues F) (F.flows names M) := by
  refine adds_onlyIf run fun _ run => ?_
  obtain ⟨A₁, first, run⟩ := bind_some run
  have one := adds_foldlM (f := addInstructionNode) (fun _ _ _ _ => addInstructionNode_adds) first
  have created : ⋃ I ∈ F.insts, {v | I.pointerTy = true ∧ v = Entity.instruction I.id} =
      pointerValues F := by
    ext v
    simp [pointerValues, and_left_comm]
  rw [created] at one
  have reached : ∀ I ∈ F.insts, A₁.Reached M I := by
    intro I mem
    constructor
    · rw [one.values]
      constructor
      · rintro (old | ⟨J, memJ, pointer, same⟩)
        · exact absurd old (before.instructions F (List.mem_cons_self ..) I mem)
        · have ids : I.id = J.id := by simpa using same
          exact (List.inj_on_of_nodup_map (insts_nodup defined) mem memJ ids) ▸ pointer
      · exact fun pointer => .inr ⟨I, mem, pointer, rfl⟩
    · intro G memG
      rw [one.values, ← before.functions G memG]
      constructor
      · rintro (old | ⟨_, _, _, same⟩)
        · exact old
        · cases same
      · exact .inl
  have two := adds_loop (fun I mem _ _ same run =>
    collectConstraintsForInstruction_adds (reached_same (reached I mem) same) run) run
  simpa using adds_trans one two

theorem collectFunctions_adds {later : List PtrFunction} (before : A.Before M later)
    (defined : ∀ F ∈ later, F ∈ M.functions)
    (apart : later.Pairwise fun F G => ∀ I ∈ F.insts, ∀ J ∈ G.insts, I.id ≠ J.id)
    (run : later.foldlM (collectConstraintsForFunction (addConstraintForExternalLibrary names M) M)
      A = some A') :
    ∃ created, A.Adds A' created (⋃ F ∈ later, F.flows names M) := by
  induction later generalizing A with
  | nil =>
    obtain rfl : A = A' := by simpa using run
    exact ⟨∅, by simpa using adds_refl A⟩
  | cons F later ih =>
    rw [List.foldlM_cons] at run
    obtain ⟨B, first, rest⟩ := bind_some run
    obtain ⟨others, apart⟩ := List.pairwise_cons.mp apart
    have one := collectConstraintsForFunction_adds before (defined F (List.mem_cons_self ..)) first
    have next : B.Before M later := by
      constructor
      · intro G mem
        rw [one.values, ← before.functions G mem]
        constructor
        · rintro (old | ⟨_, _, _, _, same⟩)
          · exact old
          · cases same
        · exact .inl
      · intro G memG J memJ
        rw [one.values]
        rintro (old | ⟨_, I, memI, _, same⟩)
        · exact before.instructions G (List.mem_cons_of_mem F memG) J memJ old
        · exact others G memG I memI J memJ (by simpa using same.symm)
    obtain ⟨created, two⟩ := ih next (fun G mem => defined G (List.mem_cons_of_mem F mem)) apart rest
    exact ⟨_, by simpa using adds_trans one two⟩

theorem insts_apart (M : PtrModule) :
    M.functions.Pairwise fun F G => ∀ I ∈ F.insts, ∀ J ∈ G.insts, I.id ≠ J.id := by
  have insts := M.inst_nodup
  rw [List.map_flatMap, List.nodup_flatMap] at insts
  refine insts.2.imp fun {F G} separate I memI J memJ same => ?_
  exact separate (List.mem_map.mpr ⟨I, memI, rfl⟩) (List.mem_map.mpr ⟨J, memJ, same.symm⟩)

def initialNaming (n : NodeIndex) : Option Place :=
  [Place.universalPtr, .universalObject, .nullPtr, .nullObject][n]?

theorem initialNaming_cases {n : NodeIndex} {p : Place} (stands : initialNaming n = some p) :
    (n = 0 ∧ p = .universalPtr) ∨ (n = 1 ∧ p = .universalObject) ∨ (n = 2 ∧ p = .nullPtr) ∨
      (n = 3 ∧ p = .nullObject) := by
  match n with
  | 0 | 1 | 2 | 3 => simpa [initialNaming, eq_comm] using stands
  | _ + 4 => simp [initialNaming] at stands

theorem start_renders : (⟨NodeMaps.start, []⟩ : Collection).Renders ∅ := by
  refine ⟨initialNaming, Nat.le_refl 4, ?_, ?_, ?_, nofun, nofun, nofun, nofun, nofun, ?_⟩
  · intro p n found
    cases p with
    | slot k => cases k <;> cases found
    | between => cases found
    | _ =>
      rw [← Option.some.inj found]
      rfl
  · intro n p stands
    rcases initialNaming_cases stands with ⟨rfl, rfl⟩ | ⟨rfl, rfl⟩ | ⟨rfl, rfl⟩ | ⟨rfl, rfl⟩ <;>
      exact .inl rfl
  · intro n p stands
    rcases initialNaming_cases stands with ⟨rfl, _⟩ | ⟨rfl, _⟩ | ⟨rfl, _⟩ | ⟨rfl, _⟩ <;> decide
  · intro n p q stands
    rcases initialNaming_cases stands with ⟨_, same⟩ | ⟨_, same⟩ | ⟨_, same⟩ | ⟨_, same⟩ <;>
      cases same

theorem initial_renders : initial.Renders initialFlows := by
  have one := @adds_emplace ⟨NodeMaps.start, []⟩ .ADDR_OF (some .universalPtr)
    (some .universalObject) _ _ ⟨_, rfl, rfl⟩ ⟨_, rfl, rfl⟩
  have two := adds_next one (@adds_emplace _ .STORE (some .universalObject)
    (some .universalObject) _ _ ⟨_, rfl, rfl⟩ ⟨_, rfl, rfl⟩)
  have three := adds_next two (@adds_emplace _ .ADDR_OF (some .nullPtr) (some .nullObject) _ _
    ⟨_, rfl, rfl⟩ ⟨_, rfl, rfl⟩)
  have all := three.renders ∅ start_renders
  simp only [flow_some, Set.empty_union, Set.singleton_union, Set.insert_union] at all
  exact all

/-- What is collected for a module is what flows in it. -/
theorem collectConstraints_renders
    (run : collectConstraints (addConstraintForExternalLibrary names M) M = some A) :
    A.Renders (M.flows names) := by
  obtain ⟨A₁, first, run⟩ := bind_some run
  have one := collectConstraintsForGlobals_adds first
  have noValues : initial.values = ∅ := by
    ext v
    simp [values, taken, node, initial, NodeMaps.start]
  have before : A₁.Before M M.functions := by
    constructor
    · intro F mem
      rw [one.values, noValues]
      simp only [functionValues, formalValues, Set.empty_union, Set.mem_union, Set.mem_iUnion,
        Set.mem_singleton_iff, Set.mem_ofPred_eq, exists_prop]
      constructor
      · rintro (⟨G, _, same⟩ | ⟨G, memG, ⟨addressTaken, same⟩ | ⟨_, formal, _, _, same⟩⟩)
        · cases same
        · have ids : F.id = G.id := by simpa using same
          exact ids ▸ addressTaken
        · cases same
      · exact fun addressTaken => .inr ⟨F, mem, .inl ⟨addressTaken, rfl⟩⟩
    · intro F mem I memI
      rw [one.values, noValues]
      simp [functionValues, formalValues]
  obtain ⟨created, two⟩ := collectFunctions_adds before (fun _ mem => mem) (insts_apart M) run
  exact (adds_trans one two).renders _ initial_renders

end Module

/-! ### The least solution -/

theorem carried_of_rendered {naming : NodeIndex → Option Place}
    (rendered : A.Rendered naming flows) (type : ConstraintType) :
    Carried (fun n p => naming n = some p) (fun d s => ⟨type, d, s⟩ ∈ A.constraints)
      (fun p q => ⟨type, p, q⟩ ∈ flows) where
  forth d s mem := rendered.forth ⟨type, d, s⟩ mem
  back p q mem d stands := rendered.back ⟨type, p, q⟩ mem d stands
  used p q mem := rendered.used ⟨type, p, q⟩ mem

theorem renames_of_rendered {naming : NodeIndex → Option Place}
    (rendered : A.Rendered naming flows) :
    Renames (constraintSystem A.constraints) (flowSystem flows) (fun n p => naming n = some p) where
  unique n p q isP isQ := Option.some.inj (isP.symm.trans isQ)
  addrOf := carried_of_rendered rendered .ADDR_OF
  copy := carried_of_rendered rendered .COPY
  load := carried_of_rendered rendered .LOAD
  store := carried_of_rendered rendered .STORE
  object d o mem n m isN isM := by
    obtain ⟨k, found⟩ := rendered.object _ mem rfl
    exact (rendered.index_unique found isN).trans (rendered.index_unique found isM).symm

theorem Renders.used_node (renders : A.Renders flows) {f : Flow} (mem : f ∈ flows)
    (lasting : ∀ p q, f.dest ≠ .between p q) : ∃ n, A.indexOf f.dest = some n := by
  obtain ⟨naming, rendered⟩ := renders
  obtain ⟨n, stands⟩ := rendered.used f mem
  rcases rendered.owned n _ stands with found | ⟨p, q, temporary⟩
  · exact ⟨n, found⟩
  · exact absurd temporary (lasting p q)

/-- The collected constraints and the flows have the same least solution. -/
theorem solution_of_renders (renders : A.Renders flows) {p q : Place} {n o : NodeIndex}
    (isN : A.indexOf p = some n) (isO : A.indexOf q = some o) :
    o ∈ solution (constraintSystem A.constraints) n ↔ q ∈ solution (flowSystem flows) p := by
  obtain ⟨naming, rendered⟩ := renders
  exact (renames_of_rendered rendered).derives_iff (rendered.named p n isN) (rendered.named q o isO)

end Collection
end ProgramSlicer.Andersen
