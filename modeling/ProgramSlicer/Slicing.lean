import ProgramSlicer.Library.ClosureMarking
import ProgramSlicer.Library.CallStrings
import ProgramSlicer.Dependence

/-!
The marking passes of `BackSlice` and `ForwardSlice`. A `std::set` of node
addresses yields its elements in an order the program does not control, so the
order is a parameter. `Labelled` reads a stored edge as a letter of a call
string; each pass is a closure under some of the letters.
-/
namespace ProgramSlicer
open ClosureMarking CallStrings

def masked (mask : Nat) (nodeMap : List (NodePtr × Option SDGEdge)) : List NodePtr :=
  (nodeMap.filter fun it => match it.2 with
    | some edge => edge.ifMask mask
    | none => false).map Prod.fst

/-- One node leaves the work set in each round; the fuel is the most rounds there can be. -/
def markReachingVertices (ord : Order NodePtr) (s : SDG) (next : NodePtr → List NodePtr)
    (resultSet workSet : List NodePtr) : Option (List NodePtr) :=
  mark ord next (s.graph.getNodeSet.length + workSet.length) resultSet workSet

/-- Both slicers call these "Slice without descending into called procedure" and
    "Slice called procedures, without ascending to call sites". -/
def maskStep1 : Nat := EdgeAttr.control ||| EdgeAttr.flow ||| EdgeAttr.call ||| EdgeAttr.paramIn
def maskStep2 : Nat := EdgeAttr.control ||| EdgeAttr.flow ||| EdgeAttr.paramOut

namespace BackSlice

def preds (s : SDG) (mask : Nat) (node : NodePtr) : List NodePtr :=
  masked mask (s.graph.getPredSet node)

def markReachingVerticesForBackSlice (ord : Order NodePtr) (s : SDG)
    (resultSet workSet : List NodePtr) (mask : Nat) : Option (List NodePtr) :=
  markReachingVertices ord s (preds s mask) resultSet workSet

def markVerticesOfBackSlice (ord : Order NodePtr) (s : SDG) (resultSet : List NodePtr) :
    Option (List NodePtr) := do
  let resultSet ← markReachingVerticesForBackSlice ord s resultSet resultSet maskStep1
  markReachingVerticesForBackSlice ord s resultSet resultSet maskStep2

end BackSlice

namespace ForwardSlice

def succs (s : SDG) (mask : Nat) (node : NodePtr) : List NodePtr :=
  masked mask (s.graph.getSuccSet node)

def markReachingVerticesForForwardSlice (ord : Order NodePtr) (s : SDG)
    (resultSet workSet : List NodePtr) (mask : Nat) : Option (List NodePtr) :=
  markReachingVertices ord s (succs s mask) resultSet workSet

def markVerticesOfForwardSlice (ord : Order NodePtr) (s : SDG) (resultSet : List NodePtr) :
    Option (List NodePtr) := do
  let resultSet ← markReachingVerticesForForwardSlice ord s resultSet resultSet maskStep1
  markReachingVerticesForForwardSlice ord s resultSet resultSet maskStep2

end ForwardSlice

namespace SDG

/-- A stored edge as a letter: call and paramIn edges open the call instruction
    they leave, paramOut edges return to the one whose output node they enter. -/
inductive Labelled (s : SDG) : NodePtr → Letter InstId → NodePtr → Prop where
  | control {a b : NodePtr} (stored : ((a, b), some ⟨EdgeAttr.control⟩) ∈ s.graph.edges) :
      Labelled s a .neutral b
  | flow {a b : NodePtr} (stored : ((a, b), some ⟨EdgeAttr.flow⟩) ∈ s.graph.edges) :
      Labelled s a .neutral b
  | call {i : InstId} {b : NodePtr}
      (stored : ((.inst i, b), some ⟨EdgeAttr.call⟩) ∈ s.graph.edges) :
      Labelled s (.inst i) (.call i) b
  | paramIn {i : InstId} {v : Value} {b : NodePtr}
      (stored : ((.callerInput i v, b), some ⟨EdgeAttr.paramIn⟩) ∈ s.graph.edges) :
      Labelled s (.callerInput i v) (.call i) b
  | paramOut {i : InstId} {v : Value} {a : NodePtr}
      (stored : ((a, .callerOutput i v), some ⟨EdgeAttr.paramOut⟩) ∈ s.graph.edges) :
      Labelled s a (.ret i) (.callerOutput i v)

def letter : NodePtr → NodePtr → Letter InstId
  | .inst i, .entry _ => .call i
  | .callerInput i _, .calleeInput _ => .call i
  | .calleeOutput _, .callerOutput i _ => .ret i
  | _, _ => .neutral

variable {A : Analyses} {M : Module} {s : SDG}

theorem kind_of_attr {a b : NodePtr} {k : Nat} (built : Built A M s)
    (stored : ((a, b), some ⟨k⟩) ∈ s.graph.edges) : k ∈ (edgeKind a b).attrs := by
  obtain ⟨k', hk, same⟩ := built.shaped _ stored
  simp only [Option.some.injEq, SDGEdge.mk.injEq] at same
  exact same ▸ hk

theorem stored_of_conn {a b : NodePtr} (built : Built A M s) (edge : s.Conn a b) :
    ∃ k ∈ (edgeKind a b).attrs, ((a, b), some ⟨k⟩) ∈ s.graph.edges := by
  obtain ⟨e, stored⟩ := edge
  obtain ⟨k, hk, same⟩ := built.shaped _ stored
  exact ⟨k, hk, same ▸ stored⟩

theorem attr_and_letter {a b : NodePtr} {k : Nat} (kind : k ∈ (edgeKind a b).attrs) :
    (letter a b = .neutral ∧ (k = EdgeAttr.control ∨ k = EdgeAttr.flow)) ∨
    (∃ i, a = .inst i ∧ letter a b = .call i ∧ k = EdgeAttr.call) ∨
    (∃ i v, a = .callerInput i v ∧ letter a b = .call i ∧ k = EdgeAttr.paramIn) ∨
    (∃ i v, b = .callerOutput i v ∧ letter a b = .ret i ∧ k = EdgeAttr.paramOut) := by
  unfold edgeKind at kind
  split at kind
  · exact Or.inr (Or.inl ⟨_, rfl, rfl, by simpa [EdgeKind.attrs] using kind⟩)
  · exact Or.inr (Or.inr (Or.inl ⟨_, _, rfl, rfl, by simpa [EdgeKind.attrs] using kind⟩))
  · exact Or.inr (Or.inr (Or.inr ⟨_, _, rfl, rfl, by simpa [EdgeKind.attrs] using kind⟩))
  · rename_i notCall notIn notOut
    refine Or.inl ⟨?_, by simpa [EdgeKind.attrs] using kind⟩
    unfold letter
    split
    · exact absurd rfl (notCall _ _ rfl)
    · exact absurd rfl (notIn _ _ _ rfl)
    · exact absurd rfl (notOut _ _ _ rfl)
    · rfl

theorem labelled_iff (built : Built A M s) {a b : NodePtr} {l : Letter InstId} :
    Labelled s a l b ↔ s.Conn a b ∧ l = letter a b := by
  constructor
  · intro edge
    cases edge with
    | control stored =>
      have options := attr_and_letter (kind_of_attr built stored)
      simp only [EdgeAttr.control, EdgeAttr.call, EdgeAttr.paramIn, EdgeAttr.paramOut] at options
      exact ⟨⟨_, stored⟩, by simp_all⟩
    | flow stored =>
      have options := attr_and_letter (kind_of_attr built stored)
      simp only [EdgeAttr.flow, EdgeAttr.call, EdgeAttr.paramIn, EdgeAttr.paramOut] at options
      exact ⟨⟨_, stored⟩, by simp_all⟩
    | call stored =>
      have options := attr_and_letter (kind_of_attr built stored)
      simp only [EdgeAttr.control, EdgeAttr.flow, EdgeAttr.call, EdgeAttr.paramIn,
        EdgeAttr.paramOut] at options
      exact ⟨⟨_, stored⟩, by simp_all⟩
    | paramIn stored =>
      have options := attr_and_letter (kind_of_attr built stored)
      simp only [EdgeAttr.control, EdgeAttr.flow, EdgeAttr.call, EdgeAttr.paramIn,
        EdgeAttr.paramOut] at options
      exact ⟨⟨_, stored⟩, by simp_all⟩
    | paramOut stored =>
      have options := attr_and_letter (kind_of_attr built stored)
      simp only [EdgeAttr.control, EdgeAttr.flow, EdgeAttr.call, EdgeAttr.paramIn,
        EdgeAttr.paramOut] at options
      exact ⟨⟨_, stored⟩, by simp_all⟩
  · intro ⟨conn, same⟩
    obtain ⟨k, kind, stored⟩ := stored_of_conn built conn
    rw [same]
    rcases attr_and_letter kind with ⟨l, rfl | rfl⟩ | ⟨i, rfl, l, rfl⟩ | ⟨i, v, rfl, l, rfl⟩ |
      ⟨i, v, rfl, l, rfl⟩
    · exact l ▸ .control stored
    · exact l ▸ .flow stored
    · exact l ▸ .call stored
    · exact l ▸ .paramIn stored
    · exact l ▸ .paramOut stored

theorem mem_masked {mask : Nat} {nodeMap : List (NodePtr × Option SDGEdge)} {n : NodePtr} :
    n ∈ masked mask nodeMap ↔ ∃ edge, (n, some edge) ∈ nodeMap ∧ edge.ifMask mask = true := by
  unfold masked
  rw [List.mem_map]
  constructor
  · rintro ⟨⟨m, edge⟩, mem, rfl⟩
    obtain ⟨mem, passes⟩ := List.mem_filter.mp mem
    cases edge with
    | none => simp at passes
    | some e => exact ⟨e, mem, passes⟩
  · rintro ⟨edge, mem, passes⟩
    exact ⟨(n, some edge), List.mem_filter.mpr ⟨mem, passes⟩, rfl⟩

theorem step1_letters (built : Built A M s) {a b : NodePtr} :
    (∃ edge, ((a, b), some edge) ∈ s.graph.edges ∧ edge.ifMask maskStep1 = true) ↔
      ∃ l, (∀ i, l ≠ .ret i) ∧ Labelled s a l b := by
  constructor
  · intro ⟨⟨k⟩, stored, passes⟩
    refine ⟨letter a b, ?_, (labelled_iff built).mpr ⟨⟨_, stored⟩, rfl⟩⟩
    rcases attr_and_letter (kind_of_attr built stored) with ⟨l, _⟩ | ⟨i, _, l, _⟩ |
      ⟨i, v, _, l, _⟩ | ⟨i, v, _, l, rfl⟩
    · simp [l]
    · simp [l]
    · simp [l]
    · exact absurd passes (by decide)
  · intro ⟨l, notRet, edge⟩
    obtain ⟨conn, same⟩ := (labelled_iff built).mp edge
    obtain ⟨k, kind, stored⟩ := stored_of_conn built conn
    refine ⟨⟨k⟩, stored, ?_⟩
    rcases attr_and_letter kind with ⟨_, rfl | rfl⟩ | ⟨i, _, _, rfl⟩ | ⟨i, v, _, _, rfl⟩ |
      ⟨i, v, _, ret, _⟩
    · decide
    · decide
    · decide
    · decide
    · exact absurd (same.trans ret) (notRet i)

theorem step2_letters (built : Built A M s) {a b : NodePtr} :
    (∃ edge, ((a, b), some edge) ∈ s.graph.edges ∧ edge.ifMask maskStep2 = true) ↔
      ∃ l, (∀ i, l ≠ .call i) ∧ Labelled s a l b := by
  constructor
  · intro ⟨⟨k⟩, stored, passes⟩
    refine ⟨letter a b, ?_, (labelled_iff built).mpr ⟨⟨_, stored⟩, rfl⟩⟩
    rcases attr_and_letter (kind_of_attr built stored) with ⟨l, _⟩ | ⟨i, _, _, rfl⟩ |
      ⟨i, v, _, _, rfl⟩ | ⟨i, v, _, l, _⟩
    · simp [l]
    · exact absurd passes (by decide)
    · exact absurd passes (by decide)
    · simp [l]
  · intro ⟨l, notCall, edge⟩
    obtain ⟨conn, same⟩ := (labelled_iff built).mp edge
    obtain ⟨k, kind, stored⟩ := stored_of_conn built conn
    refine ⟨⟨k⟩, stored, ?_⟩
    rcases attr_and_letter kind with ⟨_, rfl | rfl⟩ | ⟨i, _, call, _⟩ | ⟨i, v, _, call, _⟩ |
      ⟨i, v, _, _, rfl⟩
    · decide
    · decide
    · exact absurd (same.trans call) (notCall i)
    · exact absurd (same.trans call) (notCall i)
    · decide

theorem markReachingVertices_spec {next : NodePtr → List NodePtr} (ord : Order NodePtr)
    (inside : ∀ a, ∀ b ∈ next a, b ∈ s.graph.getNodeSet) (roots : List NodePtr) :
    ∃ final, markReachingVertices ord s next roots roots = some final ∧
      ∀ n, n ∈ final ↔ Reached next roots n := by
  obtain ⟨final, run⟩ := mark_total ord next s.graph.getNodeSet inside roots
  exact ⟨final, run, mark_iff_reached run⟩

/-- The two passes of a slicer, the second from what the first has marked. -/
theorem markTwice_spec {next1 next2 : NodePtr → List NodePtr} (ord : Order NodePtr)
    (inside1 : ∀ a, ∀ b ∈ next1 a, b ∈ s.graph.getNodeSet)
    (inside2 : ∀ a, ∀ b ∈ next2 a, b ∈ s.graph.getNodeSet) (roots : List NodePtr) :
    ∃ first final, markReachingVertices ord s next1 roots roots = some first ∧
      markReachingVertices ord s next2 first first = some final ∧
      ∀ n, n ∈ final ↔ ∃ c ∈ roots, ∃ m, Relation.ReflTransGen (Step next1) c m ∧
        Relation.ReflTransGen (Step next2) m n := by
  obtain ⟨first, run1, mem1⟩ := markReachingVertices_spec (s := s) ord inside1 roots
  obtain ⟨final, run2, mem2⟩ := markReachingVertices_spec (s := s) ord inside2 first
  refine ⟨first, final, run1, run2, fun n => ?_⟩
  rw [mem2]
  constructor
  · intro ⟨m, marked, path⟩
    obtain ⟨c, hc, before⟩ := (mem1 m).mp marked
    exact ⟨c, hc, m, before, path⟩
  · intro ⟨c, hc, m, before, path⟩
    exact ⟨m, (mem1 m).mpr ⟨c, hc, before⟩, path⟩

def Passes (s : SDG) (mask : Nat) (a b : NodePtr) : Prop :=
  ∃ edge, ((a, b), some edge) ∈ s.graph.edges ∧ edge.ifMask mask = true

section Back

theorem mem_preds {mask : Nat} {a b : NodePtr} :
    a ∈ BackSlice.preds s mask b ↔ s.Passes mask a b := by
  unfold BackSlice.preds Passes
  simp only [mem_masked, DirectedGraph.mem_getPredSet]

theorem preds_listed (listed : s.graph.NodesListed) (mask : Nat) (b a : NodePtr)
    (h : a ∈ BackSlice.preds s mask b) : a ∈ s.graph.getNodeSet := by
  obtain ⟨edge, stored, _⟩ := mem_preds.mp h
  exact (listed a b ⟨_, stored⟩).1

theorem preds_path {mask : Nat} {a b : NodePtr} :
    Relation.ReflTransGen (Step (BackSlice.preds s mask)) b a ↔
      Relation.ReflTransGen (s.Passes mask) a b := by
  rw [← Relation.reflTransGen_swap]
  unfold Function.swap Step
  simp only [mem_preds]

theorem markVerticesOfBackSlice_marks (listed : s.graph.NodesListed) (ord : Order NodePtr)
    (criterion : List NodePtr) : ∃ marked,
      BackSlice.markVerticesOfBackSlice ord s criterion = some marked ∧
      ∀ n, n ∈ marked ↔ ∃ c ∈ criterion, ∃ m,
        Relation.ReflTransGen (s.Passes maskStep2) n m ∧
          Relation.ReflTransGen (s.Passes maskStep1) m c := by
  obtain ⟨first, final, run1, run2, mem⟩ := markTwice_spec ord
    (preds_listed listed maskStep1) (preds_listed listed maskStep2) criterion
  refine ⟨final, ?_, fun n => ?_⟩
  · unfold BackSlice.markVerticesOfBackSlice BackSlice.markReachingVerticesForBackSlice
    rw [run1]
    exact run2
  · rw [mem]
    simp only [preds_path]
    tauto

theorem descend_iff (built : Built A M s) {a b : NodePtr} :
    Relation.ReflTransGen (s.Passes maskStep1) a b ↔ Descend (Labelled s) a b := by
  unfold Passes
  simp only [step1_letters built]
  rfl

theorem climb_iff (built : Built A M s) {a b : NodePtr} :
    Relation.ReflTransGen (s.Passes maskStep2) a b ↔ Climb (Labelled s) a b := by
  unfold Passes
  simp only [step2_letters built]
  rfl

/-- The backward slicer marks what climbs to a node from which a criterion is reached
    without returning. -/
theorem markVerticesOfBackSlice_spec (built : Built A M s) (ord : Order NodePtr)
    (criterion : List NodePtr) : ∃ marked,
      BackSlice.markVerticesOfBackSlice ord s criterion = some marked ∧
      ∀ n, n ∈ marked ↔ ∃ c ∈ criterion, ∃ m, Climb (Labelled s) n m ∧ Descend (Labelled s) m c := by
  obtain ⟨marked, run, mem⟩ := markVerticesOfBackSlice_marks built.listed ord criterion
  refine ⟨marked, run, fun n => ?_⟩
  rw [mem]
  simp only [descend_iff built, climb_iff built]

end Back

section Forward

theorem mem_succs {mask : Nat} {a b : NodePtr} :
    b ∈ ForwardSlice.succs s mask a ↔ s.Passes mask a b := by
  unfold ForwardSlice.succs Passes
  simp only [mem_masked, DirectedGraph.mem_getSuccSet]

theorem succs_listed (listed : s.graph.NodesListed) (mask : Nat) (a b : NodePtr)
    (h : b ∈ ForwardSlice.succs s mask a) : b ∈ s.graph.getNodeSet := by
  obtain ⟨edge, stored, _⟩ := mem_succs.mp h
  exact (listed a b ⟨_, stored⟩).2

theorem succs_path {mask : Nat} {a b : NodePtr} :
    Relation.ReflTransGen (Step (ForwardSlice.succs s mask)) a b ↔
      Relation.ReflTransGen (s.Passes mask) a b := by
  unfold Step
  simp only [mem_succs]

theorem markVerticesOfForwardSlice_marks (listed : s.graph.NodesListed) (ord : Order NodePtr)
    (criterion : List NodePtr) : ∃ marked,
      ForwardSlice.markVerticesOfForwardSlice ord s criterion = some marked ∧
      ∀ n, n ∈ marked ↔ ∃ c ∈ criterion, ∃ m,
        Relation.ReflTransGen (s.Passes maskStep1) c m ∧
          Relation.ReflTransGen (s.Passes maskStep2) m n := by
  obtain ⟨first, final, run1, run2, mem⟩ := markTwice_spec ord
    (succs_listed listed maskStep1) (succs_listed listed maskStep2) criterion
  refine ⟨final, ?_, fun n => ?_⟩
  · unfold ForwardSlice.markVerticesOfForwardSlice ForwardSlice.markReachingVerticesForForwardSlice
    rw [run1]
    exact run2
  · rw [mem]
    simp only [succs_path]

theorem markVerticesOfForwardSlice_spec (built : Built A M s) (ord : Order NodePtr)
    (criterion : List NodePtr) : ∃ marked,
      ForwardSlice.markVerticesOfForwardSlice ord s criterion = some marked ∧
      ∀ n, n ∈ marked ↔ ∃ c ∈ criterion, ∃ m, Descend (Labelled s) c m ∧ Climb (Labelled s) m n := by
  obtain ⟨marked, run, mem⟩ := markVerticesOfForwardSlice_marks built.listed ord criterion
  refine ⟨marked, run, fun n => ?_⟩
  rw [mem]
  simp only [descend_iff built, climb_iff built]

end Forward

/-- Call sites of an SDG are call instructions; a call node's arguments are its
    caller input nodes, and the node that a return enters hangs below the call. -/
theorem sites_bypassed (built : Built A M s) :
    Bypassed (Labelled s) NodePtr.inst (fun i a => ∃ v, a = .callerInput i v) where
  call_source edge := by
    cases edge with
    | call stored => exact Or.inl rfl
    | paramIn stored => exact Or.inr ⟨_, rfl⟩
  ret_bypass edge := by
    cases edge with
    | paramOut stored =>
      have dep := dependence_of_inserted ((built.conn _ _).mp ⟨_, stored⟩)
      refine (labelled_iff built).mpr ⟨(built.conn _ _).mpr (inserted_of_dependence ?_), rfl⟩
      cases dep with
      | returned hI call => exact .returned hI call
      | paramOut hI call => exact .returned hI call
  input_entry arg edge := by
    obtain ⟨v, rfl⟩ := arg
    obtain ⟨conn, same⟩ := (labelled_iff built).mp edge
    have dep := dependence_of_inserted ((built.conn _ _).mp conn)
    cases dep with
    | actual hI call hv => exact ⟨rfl, same⟩
  site_not_input i j := by
    intro ⟨v, same⟩
    cases same

end SDG
end ProgramSlicer
