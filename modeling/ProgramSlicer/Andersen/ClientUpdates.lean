import ProgramSlicer.Andersen.AnalysisClients

/-!
`AndersenAA::copyValue` and `deleteValue`, by which a client tells the analysis that it has
cloned or removed a value. The graph is not solved again, so an answer about a clone has to
come from what is known of the value that it is a clone of.
-/
namespace ProgramSlicer.Andersen
open FoldRules AndersNodeFactory Collection

def AndersNodeFactory.createNode (F : AndersNodeFactory) : AndersNodeFactory where
  numNodes := F.numNodes + 1
  mergeTarget := Function.update F.mergeTarget F.numNodes F.numNodes

namespace Finished

def createValueNode (R : Finished) (v : Entity) : Option (NodeIndex × Finished) := do
  let (n, maps) ← R.maps.createValueNode v
  return (n, ⟨maps, R.nodeFactory.createNode, R.ptsGraph⟩)

def copyValue (R : Finished) (src : PtrValue) (dst : Entity) : Option Finished :=
  match R.maps.getValueNodeFor src with
  | none => some R
  | some fromNode => do
    let (toNode, R) ←
      match R.maps.valueNodeMap dst with
      | some toNode => some (toNode, R)
      | none => R.createValueNode dst
    match R.ptsGraph fromNode with
    | none => return R
    | some set => return { R with ptsGraph := Function.update R.ptsGraph toNode (some set) }

def deleteValue (R : Finished) (v : Entity) : Finished :=
  { R with maps := { R.maps with
      valueNodeMap := Function.update R.maps.valueNodeMap v none } }

end Finished

def Entity.value : Entity → PtrValue
  | instruction i => .instruction i
  | argument a => .argument a
  | globalValue v => .constant (.globalValue v)

theorem value_place (e : Entity) : e.value.place = some (.slot (.value e)) := by
  cases e <;> rfl

def PtrValue.key (v : PtrValue) : Option Entity :=
  match v.place with
  | some (.slot (.value e)) => some e
  | _ => none

/-- What a value goes back to, where each key goes back to something. -/
def PtrValue.originIn (v : PtrValue) (origin : Entity → PtrValue) : PtrValue :=
  match v.key with
  | some e => origin e
  | none => v

/-- The updates of clients that copy to new values only, and what every value goes back to. -/
inductive Updated (R₀ : Finished) : Finished → (Entity → PtrValue) → Prop where
  | start : Updated R₀ R₀ Entity.value
  | copy {R R' : Finished} {origin : Entity → PtrValue} {src : PtrValue} {dst : Entity}
      (before : Updated R₀ R origin) (new : R.maps.valueNodeMap dst = none)
      (copied : R.copyValue src dst = some R') :
      Updated R₀ R' (Function.update origin dst (src.originIn origin))
  | delete {R : Finished} {origin : Entity → PtrValue} (before : Updated R₀ R origin)
      (v : Entity) : Updated R₀ (R.deleteValue v) origin

theorem createNode_spec {F : AndersNodeFactory} (wf : F.WellFormed) :
    F.createNode.WellFormed ∧ ∀ n, F.createNode.getMergeTarget n = F.getMergeTarget n := by
  have same : F.createNode.mergeTarget = F.mergeTarget := by
    funext n
    show Function.update F.mergeTarget F.numNodes F.numNodes n = F.mergeTarget n
    by_cases here : n = F.numNodes
    · rw [here, Function.update_self, wf.outside F.numNodes (Nat.le_refl _)]
    · exact Function.update_of_ne here _ _
  have wf' : F.createNode.WellFormed := by
    constructor
    · intro n low
      rw [same]
      have larger : n < F.numNodes + 1 := low
      by_cases last : n = F.numNodes
      · rw [last, wf.outside F.numNodes (Nat.le_refl _)]
        exact Nat.lt_succ_self _
      · exact Nat.lt_succ_of_lt (wf.inside n (by omega))
    · intro n high
      rw [same]
      have higher : F.numNodes + 1 ≤ n := high
      exact wf.outside n (by omega)
    · rw [same]
      exact wf.acyclic
  refine ⟨wf', fun n => target_eq wf' ?_⟩
  rw [same]
  exact leads_target wf n

/-- What every update keeps. Nodes that were there stay as they are, and what is known at a
    node was known of what its value goes back to. -/
structure Traced (R₀ R : Finished) (origin : Entity → PtrValue) : Prop where
  factory : R.nodeFactory.WellFormed
  numNodes : R.nodeFactory.numNodes = R.maps.numNodes
  inside : ∀ p n, R.indexOf p = some n → n < R.maps.numNodes
  root : ∀ n, (R.ptsGraph n).isSome = true →
    R.nodeFactory.getMergeTarget n = n ∧ n < R.maps.numNodes
  known : ∀ v n set, R.maps.getValueNodeFor v = some n →
    R.ptsGraph (R.nodeFactory.getMergeTarget n) = some set →
    ∃ n₀, R₀.maps.getValueNodeFor (v.originIn origin) = some n₀ ∧
      R₀.ptsGraph (R₀.nodeFactory.getMergeTarget n₀) = some set

section Nodes
variable {R R' : Finished} {v : PtrValue} {e : Entity}

theorem place_of_key (here : v.key = some e) : v.place = some (.slot (.value e)) := by
  unfold PtrValue.key at here
  split at here
  · rename_i place
    rw [place, Option.some.inj here]
  · cases here

theorem node_of_key (here : v.key = some e) :
    R.maps.getValueNodeFor v = R.maps.valueNodeMap e := by
  rw [valueNode_index, place_of_key here]
  rfl

theorem node_of_others (other : v.key ≠ some e)
    (same : ∀ p, p ≠ .slot (.value e) → R'.indexOf p = R.indexOf p) :
    R'.maps.getValueNodeFor v = R.maps.getValueNodeFor v := by
  rw [valueNode_index, valueNode_index]
  cases place : v.place with
  | none => rfl
  | some p =>
    refine same p fun here => other ?_
    unfold PtrValue.key
    rw [place, here]

theorem originIn_value : R.maps.getValueNodeFor (v.originIn Entity.value) =
    R.maps.getValueNodeFor v := by
  unfold PtrValue.originIn
  split
  · rename_i e here
    rw [valueNode_index, valueNode_index, value_place, place_of_key here]
  · rfl

theorem originIn_update {origin : Entity → PtrValue} {x : PtrValue} :
    v.originIn (Function.update origin e x) = if v.key = some e then x else v.originIn origin := by
  unfold PtrValue.originIn
  cases here : v.key with
  | none => rfl
  | some k =>
    by_cases same : k = e
    · simp [same]
    · simp [same]

theorem index_update {nodeFactory : AndersNodeFactory} {n : Option NodeIndex} {numNodes : Nat}
    {graph : NodeIndex → Option AndersPtsSet}
    (updated : R' = ⟨{ R.maps with
      numNodes := numNodes
      valueNodeMap := Function.update R.maps.valueNodeMap e n }, nodeFactory, graph⟩) :
    R'.indexOf (.slot (.value e)) = n ∧
      ∀ p, p ≠ .slot (.value e) → R'.indexOf p = R.indexOf p := by
  subst updated
  refine ⟨Function.update_self .., fun p other => ?_⟩
  cases p with
  | slot k =>
    cases k with
    | value w =>
      have apart : w ≠ e := fun same => other (by rw [same])
      exact Function.update_of_ne apart _ _
    | _ => rfl
  | _ => rfl

theorem createValueNode_cases {n : NodeIndex} (made : R.createValueNode e = some (n, R')) :
    n = R.maps.numNodes ∧ R'.maps.numNodes = R.maps.numNodes + 1 ∧
      R'.nodeFactory = R.nodeFactory.createNode ∧ R'.ptsGraph = R.ptsGraph ∧
      R'.indexOf (.slot (.value e)) = some n ∧
      ∀ p, p ≠ .slot (.value e) → R'.indexOf p = R.indexOf p := by
  obtain ⟨⟨m, maps⟩, created, same⟩ := bind_some made
  obtain ⟨rfl, rfl⟩ := Prod.mk.inj (Option.some.inj same)
  obtain ⟨_, pair⟩ := Option.ite_none_left_eq_some.mp created
  obtain ⟨rfl, rfl⟩ := Prod.mk.inj (Option.some.inj pair)
  exact ⟨rfl, rfl, rfl, rfl, index_update rfl⟩

end Nodes

section Traced
variable {R₀ R R' : Finished} {origin : Entity → PtrValue}

theorem traced_start (sound : R₀.Sound) : Traced R₀ R₀ Entity.value where
  factory := sound.factory
  numNodes := sound.numNodes
  inside := sound.inside
  root := sound.root
  known v n set node entry := ⟨n, by rw [originIn_value]; exact node, entry⟩

theorem traced_delete (traced : Traced R₀ R origin) (e : Entity) :
    Traced R₀ (R.deleteValue e) origin where
  factory := traced.factory
  numNodes := traced.numNodes
  inside p n index := by
    obtain ⟨gone, kept⟩ : (R.deleteValue e).indexOf (.slot (.value e)) = none ∧
        ∀ p, p ≠ .slot (.value e) → (R.deleteValue e).indexOf p = R.indexOf p := index_update rfl
    by_cases here : p = .slot (.value e)
    · rw [here, gone] at index
      cases index
    · exact traced.inside p n (kept p here ▸ index)
  root := traced.root
  known v n set node entry := by
    refine traced.known v n set ?_ entry
    by_cases here : v.key = some e
    · rw [node_of_key here] at node
      simp [Finished.deleteValue] at node
    · exact node_of_others here (index_update rfl).2 ▸ node

theorem traced_created (traced : Traced R₀ R origin) {src : PtrValue} {dst : Entity}
    {fromNode toNode : NodeIndex} (isFrom : R.maps.getValueNodeFor src = some fromNode)
    (made : R.createValueNode dst = some (toNode, R')) {graph : NodeIndex → Option AndersPtsSet}
    (others : ∀ n, n ≠ toNode → graph n = R.ptsGraph n)
    (copied : ∀ set, graph toNode = some set → R.ptsGraph fromNode = some set) :
    Traced R₀ { R' with ptsGraph := graph }
      (Function.update origin dst (src.originIn origin)) := by
  obtain ⟨rfl, numNodes, factory, _, added, kept⟩ := createValueNode_cases made
  obtain ⟨wf, target⟩ := createNode_spec traced.factory
  have high : R.nodeFactory.getMergeTarget R.maps.numNodes = R.maps.numNodes := by
    refine target_eq traced.factory ⟨.refl, ?_⟩
    exact traced.factory.outside _ (Nat.le_of_eq traced.numNodes)
  constructor
  · exact factory ▸ wf
  · show R'.nodeFactory.numNodes = R'.maps.numNodes
    rw [factory, numNodes]
    exact congrArg (· + 1) traced.numNodes
  · intro p n here
    show n < R'.maps.numNodes
    rw [numNodes]
    have here : R'.indexOf p = some n := here
    by_cases new : p = .slot (.value dst)
    · rw [new, added] at here
      rw [← Option.some.inj here]
      exact Nat.lt_succ_self _
    · exact Nat.lt_succ_of_lt (traced.inside p n (kept p new ▸ here))
  · intro n entry
    show R'.nodeFactory.getMergeTarget n = n ∧ n < R'.maps.numNodes
    rw [factory, target, numNodes]
    by_cases new : n = R.maps.numNodes
    · rw [new]
      exact ⟨high, Nat.lt_succ_self _⟩
    · have old := traced.root n (others n new ▸ entry)
      exact ⟨old.1, Nat.lt_succ_of_lt old.2⟩
  · intro v n set node entry
    have node : R'.maps.getValueNodeFor v = some n := node
    have entry : graph (R'.nodeFactory.getMergeTarget n) = some set := entry
    rw [factory, target] at entry
    rw [originIn_update]
    by_cases here : v.key = some dst
    · rw [if_pos here]
      have isNew : n = R.maps.numNodes := by
        rw [valueNode_index, place_of_key here] at node
        have found : R'.indexOf (.slot (.value dst)) = some n := node
        exact Option.some.inj (found.symm.trans added)
      rw [isNew, high] at entry
      have source := copied set entry
      have root := (traced.root fromNode (by simp [source])).1
      exact traced.known src fromNode set isFrom (by rw [root]; exact source)
    · rw [if_neg here]
      have node' : R.maps.getValueNodeFor v = some n :=
        node_of_others here kept ▸ node
      refine traced.known v n set node' ?_
      rw [← others _ ?_]
      · exact entry
      · intro new
        have low : R.nodeFactory.getMergeTarget n < R.nodeFactory.numNodes := by
          refine target_inside traced.factory ?_
          rw [valueNode_index] at node'
          obtain ⟨p, _, found⟩ := Option.bind_eq_some_iff.mp node'
          exact traced.numNodes ▸ traced.inside p n found
        rw [new, traced.numNodes] at low
        exact Nat.lt_irrefl _ low

theorem traced_copy (traced : Traced R₀ R origin) {src : PtrValue} {dst : Entity}
    (new : R.maps.valueNodeMap dst = none) (copied : R.copyValue src dst = some R') :
    Traced R₀ R' (Function.update origin dst (src.originIn origin)) := by
  unfold Finished.copyValue at copied
  cases isFrom : R.maps.getValueNodeFor src with
  | none =>
    rw [isFrom] at copied
    obtain rfl := Option.some.inj copied
    refine ⟨traced.factory, traced.numNodes, traced.inside, traced.root, ?_⟩
    intro v n set node entry
    rw [originIn_update]
    by_cases here : v.key = some dst
    · rw [node_of_key here, new] at node
      cases node
    · rw [if_neg here]
      exact traced.known v n set node entry
  | some fromNode =>
    rw [isFrom, new] at copied
    obtain ⟨⟨toNode, R₁⟩, made, copied⟩ := bind_some copied
    obtain ⟨rfl, _, _, graph, _, _⟩ := createValueNode_cases made
    dsimp only at copied
    have unknown : R.ptsGraph R.maps.numNodes = none := by
      by_contra some
      have low := (traced.root _ (Option.isSome_iff_ne_none.mpr some)).2
      exact Nat.lt_irrefl _ low
    cases source : R₁.ptsGraph fromNode with
    | none =>
      rw [source] at copied
      obtain rfl := Option.some.inj copied
      have others : ∀ n, n ≠ R.maps.numNodes → R₁.ptsGraph n = R.ptsGraph n :=
        fun n _ => congrFun graph n
      refine traced_created traced isFrom made others fun set entry => ?_
      rw [graph, unknown] at entry
      cases entry
    | some set =>
      rw [source] at copied
      obtain rfl := Option.some.inj copied
      refine traced_created traced isFrom made ?_ ?_
      · intro n other
        rw [Function.update_of_ne other, graph]
      · intro set' entry
        rw [Function.update_self] at entry
        rw [← entry, ← source, graph]

theorem traced_of_updated (sound : R₀.Sound) (updated : Updated R₀ R origin) :
    Traced R₀ R origin := by
  induction updated with
  | start => exact traced_start sound
  | copy _ new copied ih => exact traced_copy ih new copied
  | delete _ e ih => exact traced_delete ih e

end Traced

/-- Clients may clone and remove values as they like: if the analysis then says NoAlias of two
    values, what they go back to never pointed into objects of one site. -/
theorem updated_sound {S : Settings} {names : FuncId → String} {fuel : Nat} {M : PtrModule}
    {R₀ R : Finished} {origin : Entity → PtrValue} (plain : M.Plain)
    (overridable : OverridableNull M)
    (safe : ∀ A, collectConstraints (addConstraintForExternalLibrary names M) M = some A →
      S.Safe A.nodeFactory.numNodes A.constraints)
    (run : runOnModule S names fuel M = some R₀) (updated : Updated R₀ R origin)
    {v w : PtrValue} (answer : R.result.andersenAlias v w = some .NoAlias) {o o' : MemoryObject}
    (heldV : Held M (v.originIn origin) o) (heldW : Held M (w.originIn origin) o') :
    o.site ≠ o'.site := by
  have traced := traced_of_updated (sound_of_run safe run) updated
  obtain ⟨r1, rep1, rest⟩ := bind_some answer
  obtain ⟨r2, rep2, _⟩ := bind_some rest
  obtain ⟨_, ⟨s1, entry1⟩, ⟨s2, entry2⟩, apart⟩ :=
    (AndersenResult.answers_noAlias_iff rep1 rep2).mp answer
  rw [AndersenResult.pts_eq rep1, AndersenResult.pts_eq rep2] at apart
  have back : ∀ {u r set}, R.result.valueRep u = some r → R.ptsGraph r = some set →
      ∀ {o b}, Held M (u.originIn origin) o → R₀.maps.objNodeMap o.site = some b → b ∈ set := by
    intro u r set rep entry o b held object
    unfold AndersenResult.valueRep at rep
    split at rep
    · rename_i n node
      obtain ⟨_, same⟩ := Option.ite_none_right_eq_some.mp rep
      rw [← Option.some.inj same] at entry
      obtain ⟨n₀, node₀, entry₀⟩ := traced.known u n set node entry
      obtain ⟨m, c, node', object', set', there, inSet⟩ :=
        held_known plain overridable safe run held
      rw [node₀, Option.some.injEq] at node'
      rw [← node', entry₀, Option.some.injEq] at there
      rw [object, Option.some.injEq] at object'
      rw [there, object']
      exact inSet
    · cases rep
  intro same
  obtain ⟨_, b, _, object, _⟩ := held_known plain overridable safe run heldV
  have inBoth : b = NullObjectIndex := apart b ⟨s1, entry1, back rep1 entry1 heldV object⟩
    ⟨s2, entry2, back rep2 entry2 heldW (same ▸ object)⟩
  have index : R₀.indexOf (.slot (.object o.site)) = some b := object
  cases index_apart run (inBoth ▸ index) (q := .nullObject) rfl

theorem castCells_cloned : ∃ R₀ R,
    runOnModule (hashed false true) (fun _ => "main") 50 castCells = some R₀ ∧
    R₀.copyValue (.instruction 1) (.instruction 7) = some R ∧
    R.result.andersenAlias (.instruction 7) (.instruction 2) = some .NoAlias ∧
    ∀ o o', Held castCells (.instruction 1) o → Held castCells (.instruction 2) o' →
      o.site ≠ o'.site := by
  have answer : (runOnModule (hashed false true) (fun _ => "main") 50 castCells).bind (fun R₀ =>
      (R₀.copyValue (.instruction 1) (.instruction 7)).bind fun R =>
        R.result.andersenAlias (.instruction 7) (.instruction 2)) = some .NoAlias := by decide +kernel
  obtain ⟨R₀, run, answer⟩ := Option.bind_eq_some_iff.mp answer
  obtain ⟨R, copied, answer⟩ := Option.bind_eq_some_iff.mp answer
  have new : R₀.maps.valueNodeMap (.instruction 7) = none := by
    have here : (runOnModule (hashed false true) (fun _ => "main") 50 castCells).map
        (fun R => R.maps.valueNodeMap (.instruction 7)) = some none := by decide +kernel
    rw [run] at here
    exact Option.some.inj here
  refine ⟨R₀, R, run, copied, answer, fun o o' held1 held2 => ?_⟩
  exact updated_sound castCells_plain castCells_overridable (fun _ _ => hashed_safe) run
    (.copy .start new copied) answer held1 held2

end ProgramSlicer.Andersen
